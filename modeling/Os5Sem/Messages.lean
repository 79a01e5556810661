import Os5Sem.ConnectionHeader
import Os5Sem.UrlRemoval

/-!
Requests as messages: a target, a version, headers and a body that can be written
down, and the text that a client sends for them. The parsers of the handler take this
text and read from it what has been written (`read_as_written`).
-/
namespace Os5Sem.Messages
open Os5Sem.Occurrences Os5Sem.Lines Os5Sem.CMemory Os5Sem.Handler Os5Sem.RequestText Os5Sem.RequestLength
open Os5Sem.Forwarding Os5Sem.RequestLine Os5Sem.HeaderReading Os5Sem.HeaderGrammar Os5Sem.ConnectionHeader

/-! ### Headers -/

/-- A header that `parse_headers` has room for, on a line of its own. -/
structure Header where
  name : List Byte
  value : List Byte
  named : 0 < name.length ∧ name.length < hNameSize
  valued : 0 < value.length ∧ value.length < hValSize
  noColon : 58 ∉ name
  oneLine : 13 ∉ name ∧ 13 ∉ value
  noNul : 0 ∉ name ∧ 0 ∉ value
  unpadded : value.head? ≠ some 32

namespace Header

variable {h h' : Header}

/-- The line as it is written, with one space behind the colon. -/
def text (h : Header) : List Byte := h.name ++ 58 :: 32 :: h.value

/-- The line as it is read. -/
def line (h : Header) : HeaderLine := ⟨h.name,1,h.value⟩

theorem line_injective (same : h.line = h'.line) : h = h' := by
  cases h
  cases h'
  cases same
  rfl

theorem oneLine_text (h : Header) : 13 ∉ h.text := by
  have name := h.oneLine.1
  have value := h.oneLine.2
  simp [text,name,value]

theorem noNul_text (h : Header) : 0 ∉ h.text := by
  have name := h.noNul.1
  have value := h.noNul.2
  simp [text,name,value]

theorem search_colon (h : Header) : search [58] h.text = some h.name.length := by
  have here : [58] <+: 58 :: 32 :: h.value := List.prefix_append [58] _
  rw [text,search_skip (a := 58) rfl h.noColon,search_cons,if_pos here]
  simp

/-- A header is read as it is written. -/
theorem lineOf_text (h : Header) : lineOf h.text = some h.line := by
  have behind : h.text.drop (h.name.length+1) = 32 :: h.value := by
    rw [text,← List.drop_drop,List.drop_left]
    rfl
  have spaces : leadingSpaces (32 :: h.value) = 1 := by
    cases is : h.value with
    | nil => rfl
    | cons c rest =>
      have other : c ≠ 32 := fun space => h.unpadded (by rw [is,space]; rfl)
      simp [leadingSpaces,other]
  have value : h.text.drop (h.name.length+1+1) = h.value := by
    rw [← List.drop_drop,behind]
    rfl
  have named := h.named
  have valued := h.valued
  rw [lineOf,h.search_colon]
  simp only [behind,spaces,value]
  rw [if_neg (by omega),if_neg (by omega),text,List.take_left,line]

/-- The header with the value `close`, when it is a `Connection` header. -/
def closed (h : Header) : Header :=
  if h.line.Named "connection" then
    { h with
      value := ascii "close"
      valued := by decide
      oneLine := ⟨h.oneLine.1,by decide⟩
      noNul := ⟨h.noNul.1,by decide⟩
      unpadded := by decide }
  else h

theorem closed_of_not_named (other : ¬ h.line.Named "connection") : h.closed = h := if_neg other

theorem closed_text (h : Header) : h.closed.text = closeLine h.text := by
  have start : h.line.valueStart = h.name.length + 2 := rfl
  have front : h.text.take (h.name.length+2) = h.name ++ [58,32] := by
    rw [text,List.take_length_add_append]
    rfl
  rw [closeLine,h.lineOf_text,closed]
  simp only [start,front]
  split
  · simp [text]
  · rfl

theorem closed_named (name : String) : h.closed.line.Named name ↔ h.line.Named name := by
  unfold closed
  split <;> rfl

theorem closed_closed (h : Header) : h.closed.closed = h.closed := by
  by_cases named : h.line.Named "connection"
  · have again := (closed_named "connection").mpr named
    apply line_injective
    rw [closed,if_pos again,line,line,closed,if_pos named]
  · rw [closed_of_not_named named,closed_of_not_named named]

end Header

/-! ### Requests -/

inductive Version
  | http10
  | http11
deriving DecidableEq

def Version.text : Version → List Byte
  | .http10 => ascii "HTTP/1.0"
  | .http11 => ascii "HTTP/1.1"

/-- A target as it is written: a path, or an absolute URL with the authority before the
    path. -/
def targetText : Option (List Byte) → List Byte → List Byte
  | none,path => path
  | some host,path => ascii "http://" ++ (host ++ path)

theorem path_suffix (authority : Option (List Byte)) (path : List Byte) : path <:+ targetText authority path := by
  cases authority with
  | none => exact List.suffix_refl path
  | some host => exact (List.suffix_append host path).trans (List.suffix_append _ _)

/-- A target that `parse_request_line` has room for. -/
structure Target where
  authority : Option (List Byte)
  path : List Byte
  rooted : path.head? = some 47
  host : ∀ host ∈ authority, 47 ∉ host
  solid : ∀ c ∈ targetText authority path, isSpace c = false
  short : (targetText authority path).length ≤ 2047
  noNul : 0 ∉ targetText authority path

namespace Target

variable {target target' : Target}

def text (target : Target) : List Byte := targetText target.authority target.path

theorem path_eq (target : Target) : ∃ rest, target.path = 47 :: rest := List.head?_eq_some_iff.mp target.rooted

theorem filled (target : Target) : target.text ≠ [] := by
  obtain ⟨rest,is⟩ := target.path_eq
  intro none
  have inside := path_suffix target.authority target.path
  rw [show targetText target.authority target.path = [] from none,is] at inside
  cases List.suffix_nil.mp inside

/-- The path of the target. -/
def relative (target : Target) : Target where
  authority := none
  path := target.path
  rooted := target.rooted
  host _ is := by cases is
  solid c member := target.solid c ((path_suffix _ _).subset member)
  short := Nat.le_trans (path_suffix _ _).length_le target.short
  noNul member := target.noNul ((path_suffix _ _).subset member)

/-- The first slash of the path ends the host. -/
theorem takeWhile_host {host : List Byte} (noSlash : 47 ∉ host) (target : Target) :
    (host ++ target.path).takeWhile (· ≠ 47) = host := by
  obtain ⟨path,is⟩ := target.path_eq
  rw [is,List.takeWhile_append_of_pos]
  · simp
  · intro c member
    rw [decide_eq_true_iff]
    intro same
    exact noSlash (same ▸ member)

/-- A path does not begin as an absolute URL does. -/
theorem not_absolute (target : Target) (front : List Byte) : target.path ≠ ascii "http://" ++ front := by
  obtain ⟨rest,is⟩ := target.path_eq
  intro same
  have first : some 47 = (ascii "http://" ++ front).head? := congrArg List.head? (is.symm.trans same)
  rw [List.head?_append_of_ne_nil _ (by decide)] at first
  exact absurd first (by decide)

theorem text_injective (same : target.text = target'.text) : target = target' := by
  have fields : target.authority = target'.authority ∧ target.path = target'.path := by
    rw [text,text] at same
    cases one : target.authority with
    | none =>
      cases two : target'.authority with
      | none =>
        rw [one,two] at same
        exact ⟨rfl,same⟩
      | some host' =>
        rw [one,two] at same
        exact absurd same (target.not_absolute _)
    | some host =>
      cases two : target'.authority with
      | none =>
        rw [one,two] at same
        exact absurd same.symm (target'.not_absolute _)
      | some host' =>
        rw [one,two] at same
        have behind := List.append_cancel_left same
        have hosts := congrArg (List.takeWhile (· ≠ 47)) behind
        rw [takeWhile_host (target.host host one),takeWhile_host (target'.host host' two)] at hosts
        subst hosts
        exact ⟨rfl,List.append_cancel_left behind⟩
  cases target
  cases target'
  obtain ⟨rfl,rfl⟩ := fields
  rfl

end Target

/-- A request that is meant for a proxy. -/
structure Request where
  target : Target
  version : Version
  headers : List Header
  body : List Byte
  hosted : ∃ h ∈ headers, h.line.Named "host"
  noNul : 0 ∉ body

namespace Request

variable {r r' : Request}

def firstLine (r : Request) : List Byte := ascii "GET " ++ (r.target.text ++ 32 :: r.version.text)

/-- What a client sends. -/
def text (r : Request) : List Byte :=
  r.firstLine ++ 13 :: 10 :: (unlines 13 10 (r.headers.map Header.text) ++ 13 :: 10 :: r.body)

/-- The value of the last `Host` header. -/
def host (r : Request) : List Byte := (hostOf (r.headers.map Header.line)).getD []

theorem oneLine_firstLine (r : Request) : 13 ∉ r.firstLine := by
  have method : 13 ∉ ascii "GET " := by decide
  have target : 13 ∉ r.target.text := not_mem_of_solid r.target.solid (by decide)
  have version : 13 ∉ r.version.text := by cases r.version <;> decide
  simp [firstLine,method,target,version]

theorem clean_of_oneLine {line : List Byte} (oneLine : 13 ∉ line) : Clean 13 10 line :=
  fun inside => oneLine (inside.subset List.mem_cons_self)

/-- The lines of the text are the first line and the headers. -/
theorem sectioned_text (r : Request) :
    Sectioned 13 10 r.text r.firstLine (r.headers.map Header.text) r.body := by
  refine ⟨rfl,clean_of_oneLine r.oneLine_firstLine,fun l member => ?_,fun l member => ?_⟩
  · obtain ⟨h,_,rfl⟩ := List.mem_map.mp member
    exact clean_of_oneLine h.oneLine_text
  · obtain ⟨h,_,rfl⟩ := List.mem_map.mp member
    simp [Header.text]

theorem noNul_text (r : Request) : 0 ∉ r.text := by
  have method : 0 ∉ ascii "GET " := by decide
  have target := r.target.noNul
  have version : 0 ∉ r.version.text := by cases r.version <;> decide
  have headers : 0 ∉ unlines 13 10 (r.headers.map Header.text) := by
    rw [unlines,List.mem_flatMap]
    rintro ⟨l,inside,member⟩
    obtain ⟨h,_,rfl⟩ := List.mem_map.mp inside
    have noNul := h.noNul_text
    simp [noNul] at member
  have body := r.noNul
  simp [text,firstLine,method,Target.text,target,version,headers,body]

/-! ### Reading back -/

/-- The text behind the first line. -/
def behind (r : Request) : List Byte := 13 :: 10 :: (unlines 13 10 (r.headers.map Header.text) ++ 13 :: 10 :: r.body)

/-- The request line is read as it is written. -/
theorem parts_text (r : Request) :
    parts r.text = some ⟨[],ascii "GET",[32],r.target.text,[32],r.version.text,r.behind⟩ := by
  have someGet : ascii "GET" ≠ [] := by decide
  have solidGet : ∀ c ∈ ascii "GET", isSpace c = false := by decide +kernel
  have shortGet : (ascii "GET").length ≤ 15 := by decide
  refine parts_eq_some.mpr ⟨?_,?_⟩
  · have get : ascii "GET " = ascii "GET" ++ [32] := by decide
    simp [text,firstLine,get,behind,Parts.text,Parts.afterMethod,Parts.afterUrl]
  · constructor
    case lead => simp
    case method => exact ⟨someGet,solidGet,shortGet,.inr (by simp [Parts.afterMethod,isSpace])⟩
    case gap => simp [isSpace]
    case url => exact ⟨r.target.filled,r.target.solid,r.target.short,.inr (by simp [Parts.afterUrl,isSpace])⟩
    case gap' => simp [isSpace]
    case version =>
      have solid : ∀ c ∈ r.version.text, isSpace c = false := by cases r.version <;> decide +kernel
      have eight : r.version.text.length = 8 := by cases r.version <;> decide
      have short : r.version.text.length ≤ 11 := by omega
      refine ⟨fun none => ?_,solid,short,.inr (by simp [behind,isSpace])⟩
      rw [show r.version.text = [] from none] at eight
      cases eight

theorem hosted_line (r : Request) : hostOf (r.headers.map Header.line) = some r.host := by
  have found : hostOf (r.headers.map Header.line) ≠ none := by
    intro none
    obtain ⟨h,member,named⟩ := r.hosted
    exact hostOf_eq_none.mp none h.line (List.mem_map_of_mem member) named
  obtain ⟨value,is⟩ := Option.ne_none_iff_exists'.mp found
  rw [host,is]
  rfl

/-- The headers are read as they are written. -/
theorem reads_text (r : Request) : Reads r.text (r.firstLine.length+2) (r.headers.map Header.line) r.host := by
  have colons : ∀ l ∈ r.headers.map Header.text, 58 ∈ l := by
    intro l member
    obtain ⟨h,_,rfl⟩ := List.mem_map.mp member
    simp [Header.text]
  have heads : (r.headers.map Header.text).map lineOf = (r.headers.map Header.line).map some := by
    rw [List.map_map,List.map_map]
    exact List.map_congr_left fun h _ => h.lineOf_text
  have all : readAll (r.headers.map Header.text) (some []) = some (r.headers.map Header.line) :=
    readAll_eq_some.mpr ⟨_,[],heads,rfl,(List.append_nil _).symm⟩
  refine ⟨?_,r.hosted_line⟩
  rw [headerSection_of_sectioned r.sectioned_text,joined_of_colons colons,List.nil_append,readLines_blank,all]
  rfl

theorem version_injective {v v' : Version} (same : v.text = v'.text) : v = v' := by
  cases v <;> cases v' <;> first | rfl | exact absurd same (by decide)

/-- The text tells the request. -/
theorem text_injective (same : r.text = r'.text) : r = r' := by
  have lines := r.parts_text.symm.trans ((congrArg parts same).trans r'.parts_text)
  have isSection := sectioned_unique (by decide) (same ▸ r.sectioned_text) r'.sectioned_text
  have read := (reads_unique (same ▸ r.reads_text) r'.reads_text).2.1
  simp only [Option.some.injEq,Parts.mk.injEq] at lines
  have target := Target.text_injective lines.2.2.2.1
  have version := version_injective lines.2.2.2.2.2.1
  have headers := List.map_injective_iff.mpr (fun _ _ => Header.line_injective) read
  have body := isSection.2.2
  cases r
  cases r'
  simp only at target version headers body
  subst target version headers body
  rfl

theorem scanned_text (r : Request) : scanRequestLine r.text = some (ascii "GET",r.target.text,r.version.text) := by
  rw [scanRequestLine_parts,r.parts_text]
  rfl

/-- The request line is taken, and its version is overwritten where it is found. -/
theorem versioned_found (r : Request) : ∃ q, search r.version.text r.text = some q ∧
    versioned r.text = some (overwrite r.text q (ascii "HTTP/1.1")) := by
  have get : strncmp (ascii "GET") (ascii "GET") 3 = 0 := by decide
  have known : ¬ (strncmp r.version.text (ascii "HTTP/1.0") 8 ≠ 0 ∧
    strncmp r.version.text (ascii "HTTP/1.1") 8 ≠ 0) := by
    cases r.version <;> decide
  obtain ⟨q,found⟩ := search_of_inside (version_inside r.scanned_text)
  refine ⟨q,found,?_⟩
  rw [versioned,r.scanned_text]
  simp only [Option.bind_eq_bind,Option.bind_some,get,ne_eq,not_true_eq_false,if_false]
  rw [if_neg known,found,Option.map_some]

theorem parseRequestLine_takes (r : Request) (rest : List Byte) :
    ∃ first, parseRequestLine (r.text ++ 0 :: rest) = some (.ok (),first) := by
  obtain ⟨q,_,takes⟩ := r.versioned_found
  rcases parseRequestLine_text r.noNul_text rest with ⟨_,_,refused⟩ | ⟨first,parsed,_⟩
  · cases takes.symm.trans refused
  · exact ⟨_,parsed⟩

/-- The headers are taken, and the buffer holds the host, when there is room for one
    more `Connection` header. -/
theorem parseHeaders_takes (r : Request) {rest : List Byte}
    (room : lastConnection (r.firstLine.length+2) (r.headers.map Header.line) = none → 20 ≤ rest.length) :
    ∃ host rest', parseHeaders (r.text ++ 0 :: rest) (array hValSize) = some (.ok host,
      reconnected r.text (lastConnection (r.firstLine.length+2) (r.headers.map Header.line)) ++ 0 :: rest') ∧
      cstring host 0 = r.host := by
  rcases parseHeaders_reads r.noNul_text rest (array_length hValSize) with
    ⟨_,refused⟩ | ⟨headers,lines,value,host,reads,nonempty,_,string,parsed⟩
  · exact absurd r.reads_text (refused _ _ _)
  obtain ⟨rfl,rfl,rfl⟩ := reads_unique r.reads_text reads
  rcases connection_edited r.noNul_text rest reads.read nonempty with ⟨_,rest',edited⟩ | ⟨none,full,_⟩
  · have returned := congrArg (Option.map fun buffer => ((.ok host : Except (List Byte) (List Byte)),buffer)) edited
    exact ⟨host,rest',parsed.trans returned,string⟩
  · exact absurd (room none) (by omega)

/-- What is read from the text of a request, in a buffer with more behind it. -/
structure Read (r : Request) (rest : List Byte) : Prop where
  line : scanRequestLine (cstring (r.text ++ 0 :: rest) 0) = some (ascii "GET",r.target.text,r.version.text)
  lineTaken : ∃ first, parseRequestLine (r.text ++ 0 :: rest) = some (.ok (),first)
  headers : Reads (cstring (r.text ++ 0 :: rest) 0) (r.firstLine.length+2) (r.headers.map Header.line) r.host
  headersTaken : ∃ host second, parseHeaders (r.text ++ 0 :: rest) (array hValSize) = some (.ok host,second) ∧
    cstring host 0 = r.host
  unique : ∀ r' : Request, r'.text = r.text → r' = r

/-- A request that is written down is taken by both parsers, and they read the target,
    the version, the headers and the host that have been written: no other request has
    the same text. -/
theorem read_as_written (r : Request) {rest : List Byte} (room : 20 ≤ rest.length) : Read r rest := by
  have string : cstring (r.text ++ 0 :: rest) 0 = r.text := by
    rw [cstring_text r.noNul_text (Nat.zero_le _),List.drop_zero]
  constructor
  case line => rw [string,r.scanned_text]
  case lineTaken => exact r.parseRequestLine_takes rest
  case headers => rw [string]; exact r.reads_text
  case headersTaken =>
    obtain ⟨host,rest',parsed,same⟩ := r.parseHeaders_takes (fun _ => room)
    exact ⟨host,_,parsed,same⟩
  case unique => exact fun r' same => text_injective same

/-! ### A request of a browser -/

def hostHeader : Header := ⟨ascii "Host",ascii "a.b",by decide,by decide,by decide,by decide,by decide,by decide⟩

def keepAlive : Header :=
  ⟨ascii "Connection",ascii "keep-alive",by decide,by decide,by decide,by decide,by decide,by decide⟩

def browsing : Request where
  target := ⟨some (ascii "a.b"),ascii "/c",by decide,by decide,by decide +kernel,by decide,by decide⟩
  version := .http10
  headers := [hostHeader,keepAlive]
  body := []
  hosted := ⟨hostHeader,by simp,by decide⟩
  noNul := by decide

example : browsing.text =
    ascii "GET http://a.b/c HTTP/1.0\r\nHost: a.b\r\nConnection: keep-alive\r\n\r\n" := by decide

theorem read_as_written_browsing : Read browsing (array 20) := read_as_written browsing (by decide)

end Request

end Os5Sem.Messages
