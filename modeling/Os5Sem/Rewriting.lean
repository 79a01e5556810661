import Os5Sem.Messages

/-!
What the handler makes of a request: another request, with a relative target, version
`HTTP/1.1` and its `Connection` headers closed, which stays as it is when it goes
through a proxy again (`handler_forwards`).
-/
namespace Os5Sem.Messages
open Os5Sem.Occurrences Os5Sem.Lines Os5Sem.CMemory Os5Sem.Handler Os5Sem.RequestText Os5Sem.RequestLength
open Os5Sem.Forwarding Os5Sem.RequestLine Os5Sem.HeaderReading Os5Sem.HeaderGrammar Os5Sem.ConnectionHeader
open Os5Sem.UrlRemoval (pathOf removed_iff)

namespace Request

variable {r : Request}

def upgraded (r : Request) : Request := { r with version := .http11 }

def closed (r : Request) : Request :=
  { r with
    headers := r.headers.map Header.closed
    hosted := by
      obtain ⟨h,member,named⟩ := r.hosted
      exact ⟨h.closed,List.mem_map_of_mem member,(h.closed_named "host").mpr named⟩ }

def relative (r : Request) : Request := { r with target := r.target.relative }

/-- The request that the server is meant to get. -/
def forwarded (r : Request) : Request := r.upgraded.closed.relative

/-- One `Connection` header is left to close, the last one, and its value has the
    length of `close`. -/
def ClosesLast (r : Request) : Prop :=
  ∃ before c behind, r.headers = before ++ c :: behind ∧ c.line.Named "connection" ∧ 5 ≤ c.value.length ∧
    (∀ h ∈ before, h.closed = h) ∧ ∀ h ∈ behind, ¬ h.line.Named "connection"

/-- A request that the edits in place are made for. -/
structure Rewritable (r : Request) : Prop where
  version : r.version = .http10 → ¬ ascii "HTTP/1.0" <:+: r.target.text
  connection : r.ClosesLast
  url : r.target.authority = none → urlSpan r.forwarded.text = none

/-! ### The version -/

/-- The version occurs first where it stands, unless it occurs in the target. -/
theorem search_version (absent : ¬ ascii "HTTP/1.0" <:+: r.target.text) (behind : List Byte) :
    search (ascii "HTTP/1.0") (ascii "GET " ++ (r.target.text ++ 32 :: (ascii "HTTP/1.0" ++ behind))) =
      some ((ascii "GET " ++ (r.target.text ++ [32])).length) := by
  have here : search (ascii "HTTP/1.0") (ascii "HTTP/1.0" ++ behind) = some 0 :=
    search_eq_some.mpr ⟨Nat.zero_le _,List.prefix_append ..,by simp⟩
  have split : r.target.text ++ 32 :: (ascii "HTTP/1.0" ++ behind) =
      (r.target.text ++ [32]) ++ (ascii "HTTP/1.0" ++ behind) := by simp
  have skipped : search (ascii "HTTP/1.0") (r.target.text ++ 32 :: (ascii "HTTP/1.0" ++ behind)) =
      some (r.target.text.length+1) := by
    have drops : (r.target.text ++ 32 :: (ascii "HTTP/1.0" ++ behind)).drop (r.target.text.length+1) =
        ascii "HTTP/1.0" ++ behind := by
      rw [split]
      exact List.drop_left' (by simp)
    rw [search_drop (k := r.target.text.length+1) (by simp) ?_,drops,here]
    · simp
    · intro j before occurs
      rw [List.drop_append_of_le_length (by omega),prefix_barrier (by decide)] at occurs
      exact absent (occurs.isInfix.trans (List.drop_suffix _ _).isInfix)
  rw [search_skip (a := 72) (by decide) (by decide),skipped]
  simp only [List.length_append,List.length_singleton,Option.map_some,Option.some.injEq]
  omega

theorem versioned_text (rewritable : Rewritable r) : versioned r.text = some r.upgraded.text := by
  obtain ⟨q,found,taken⟩ := r.versioned_found
  rw [taken,Option.some.injEq]
  cases is : r.version with
  | http11 =>
    have here : ascii "HTTP/1.1" <+: r.text.drop q := by
      have occurs := (search_eq_some.mp found).2.1
      rwa [is] at occurs
    have same : r.upgraded = r := by rw [upgraded,← is]
    rw [overwrite_same here,same]
  | http10 =>
    have place := @search_version r (rewritable.version is) r.behind
    have split : r.text = (ascii "GET " ++ (r.target.text ++ [32])) ++ (ascii "HTTP/1.0" ++ r.behind) := by
      simp [text,firstLine,is,behind,Version.text]
    have same : r.text = ascii "GET " ++ (r.target.text ++ 32 :: (ascii "HTTP/1.0" ++ r.behind)) := by
      simp [split]
    rw [← same,show ascii "HTTP/1.0" = r.version.text by rw [is]; rfl,found,Option.some.injEq] at place
    rw [place,split,overwrite,List.take_left,← List.drop_drop,List.drop_left,List.drop_left' (by decide)]
    simp [upgraded,text,firstLine,behind,Version.text]

/-! ### The `Connection` header -/

theorem closed_iff_text (h : Header) : Closed h.text ↔ h.closed = h := by
  rw [← closeLine_eq_self,← h.closed_text]
  constructor
  · intro same
    apply Header.line_injective
    have lines := congrArg lineOf same
    rw [h.closed.lineOf_text,h.lineOf_text] at lines
    exact Option.some.inj lines
  · intro same
    rw [same]

theorem closed_text (r : Request) : r.closed.text = replaced r.firstLine (r.headers.map Header.text) r.body := by
  have headers : (r.headers.map Header.closed).map Header.text = (r.headers.map Header.text).map closeLine := by
    rw [List.map_map,List.map_map]
    exact List.map_congr_left fun h _ => h.closed_text
  show r.firstLine ++ 13 :: 10 ::
    (unlines 13 10 ((r.headers.map Header.closed).map Header.text) ++ 13 :: 10 :: r.body) =
    _
  rw [headers]
  rfl

/-- The last `Connection` header is found and closed. -/
theorem reconnected_text (closes : r.ClosesLast) : ∃ h line,
    lastConnection (r.firstLine.length+2) (r.headers.map Header.line) = some (h,line) ∧
      reconnected r.text (some (h,line)) = r.closed.text := by
  obtain ⟨before,c,behind,split,named,five,settled,others⟩ := closes
  have reads := r.reads_text
  have last : lastConnection (r.firstLine.length+2) (r.headers.map Header.line) =
      some (r.firstLine.length + 2 + ((before.map Header.line).map HeaderLine.length).sum,c.line) := by
    have nothing : ∀ start, lastConnection start (behind.map Header.line) = none := by
      intro start
      rw [lastConnection_eq_none]
      intro line member
      obtain ⟨h,inside,rfl⟩ := List.mem_map.mp member
      exact others h inside
    rw [split,List.map_append,List.map_cons,lastConnection_append,lastConnection,nothing,if_pos named]
    rfl
  have heads : (before.map Header.text).map lineOf = (before.map Header.line).map some := by
    rw [List.map_map,List.map_map]
    exact List.map_congr_left fun h _ => h.lineOf_text
  refine ⟨_,_,last,?_⟩
  rw [reconnected,closed_text,closed_iff r.noNul_text r.sectioned_text reads.read last]
  refine .inl ⟨before.map Header.text,c.text,behind.map Header.text,?_,?_,five,?_⟩
  · rw [split,List.map_append,List.map_cons]
  · rw [lengths_of_groups heads]
  · intro l member
    rcases List.mem_append.mp member with front | back
    · obtain ⟨h,inside,rfl⟩ := List.mem_map.mp front
      exact (closed_iff_text h).mpr (settled h inside)
    · obtain ⟨h,inside,rfl⟩ := List.mem_map.mp back
      exact (closed_iff_text h).mpr (h.closed_of_not_named (others h inside))

/-! ### The target -/

theorem pathOf_target {target : Target} {host : List Byte} (is : target.authority = some host) :
    pathOf target.text = target.path ∧ 47 ∈ target.text.drop 7 ∧ ascii "http://" <+: target.text := by
  obtain ⟨rest,path⟩ := target.path_eq
  have noSlash := target.host host is
  have text : target.text = ascii "http://" ++ (host ++ target.path) := by rw [Target.text,is,targetText]
  have drops : target.text.drop 7 = host ++ target.path := by
    rw [text]
    exact List.drop_left' (by decide)
  have here : [47] <+: 47 :: rest := List.prefix_append [47] rest
  have found : search [47] (host ++ target.path) = some host.length := by
    rw [path,search_skip (a := 47) rfl noSlash,search_cons,if_pos here]
    simp
  refine ⟨?_,?_,?_⟩
  · rw [pathOf,drops,found]
    simp only
    rw [← List.drop_drop,drops,List.drop_left]
  · rw [drops,path]
    simp
  · rw [text]
    exact List.prefix_append ..

theorem urlRemoved_text (url : r.target.authority = none → urlSpan r.relative.text = none) :
    urlRemoved r.text = r.relative.text := by
  cases is : r.target.authority with
  | none =>
    have same : r.relative.text = r.text := by
      show ascii "GET " ++ (targetText none r.target.path ++ _) ++ _ = ascii "GET " ++ (targetText _ _ ++ _) ++ _
      rw [is]
      rfl
    have nothing := url is
    rw [same] at nothing
    rw [same,urlRemoved,nothing]
  | some host =>
    obtain ⟨path,slash,absolute⟩ := pathOf_target is
    have split : r.text = ascii "GET " ++ (r.target.text ++ (32 :: (r.version.text ++ r.behind))) := by
      simp [text,firstLine,behind]
    have found : search (ascii "http://") r.text = some (ascii "GET ").length := by
      have here : search (ascii "http://") (r.target.text ++ (32 :: (r.version.text ++ r.behind))) = some 0 :=
        search_eq_some.mpr ⟨Nat.zero_le _,absolute.trans (List.prefix_append ..),by simp⟩
      rw [split,search_skip (a := 104) (by decide) (by decide),here]
      rfl
    rw [split] at found
    rw [split,(removed_iff absolute).mpr ⟨slash,found⟩,path]
    simp [relative,text,firstLine,behind,Target.relative,Target.text,targetText]

/-! ### All edits -/

theorem urlRemoved_closed (rewritable : Rewritable r) :
    urlRemoved r.upgraded.closed.text = r.forwarded.text := urlRemoved_text rewritable.url

/-- The text of a request is rewritten to the text of the request that is meant for
    the server. -/
theorem rewritten_text (rewritable : Rewritable r) : rewritten r.text = some r.forwarded.text := by
  obtain ⟨h,line,last,edited⟩ := @reconnected_text r.upgraded rewritable.connection
  rw [rewritten,versioned_text rewritable]
  simp only [Option.bind_eq_bind,Option.bind_some,r.upgraded.reads_text.read,Option.pure_def,last,edited,
    urlRemoved_closed rewritable]

/-- The buffer of the handler with one string in it, after the parsers and the removal
    of the URL with another, and the value that has been read for the host. -/
def Makes (text text' host : List Byte) : Prop :=
  ∀ rest, ∃ first second array_host rest', parseRequestLine (text ++ 0 :: rest) = some (.ok (),first) ∧
    parseHeaders first (array hValSize) = some (.ok array_host,second) ∧ cstring array_host 0 = host ∧
    removeUrl second = some (text' ++ 0 :: rest')

theorem makes_forwarded (rewritable : Rewritable r) : Makes r.text r.forwarded.text r.host := by
  intro rest
  rcases parseRequestLine_text r.noNul_text rest with ⟨_,_,refused⟩ | ⟨first,parsed,taken⟩
  · cases refused.symm.trans (versioned_text rewritable)
  cases taken.symm.trans (versioned_text rewritable)
  obtain ⟨h,line,last,edited⟩ := @reconnected_text r.upgraded rewritable.connection
  obtain ⟨host,rest',headed,string⟩ := @parseHeaders_takes r.upgraded rest fun none => by cases last.symm.trans none
  have found : lastConnection (r.upgraded.firstLine.length+2) (r.upgraded.headers.map Header.line) = some (h,line) :=
    last
  rw [found,edited] at headed
  obtain ⟨left,_,removed⟩ := removeUrl_text r.upgraded.closed.noNul_text
  rw [urlRemoved_closed rewritable] at removed
  exact ⟨_,_,host,_,parsed,headed,string,removed rest'⟩

/-! ### The forwarded request -/

theorem forwarded_forwarded (r : Request) : r.forwarded.forwarded = r.forwarded := by
  have headers : (r.headers.map Header.closed).map Header.closed = r.headers.map Header.closed := by
    rw [List.map_map]
    exact List.map_congr_left fun h _ => h.closed_closed
  simp only [forwarded,relative,closed,upgraded,headers]
  rfl

theorem rewritable_forwarded (rewritable : Rewritable r) (clear : urlSpan r.forwarded.text = none) :
    Rewritable r.forwarded := by
  obtain ⟨before,c,behind,split,named,_,settled,others⟩ := rewritable.connection
  constructor
  case version => intro is; cases is
  case url => intro _; rwa [forwarded_forwarded]
  case connection =>
    have five : c.closed.value = ascii "close" := by rw [Header.closed,if_pos named]
    refine ⟨before.map Header.closed,c.closed,behind.map Header.closed,?_,?_,?_,?_,?_⟩
    · show r.headers.map Header.closed = _
      rw [split,List.map_append,List.map_cons]
    · exact (c.closed_named "connection").mpr named
    · rw [five]
      decide
    · intro h member
      obtain ⟨h,_,rfl⟩ := List.mem_map.mp member
      exact h.closed_closed
    · intro h member
      obtain ⟨h,inside,rfl⟩ := List.mem_map.mp member
      exact mt (h.closed_named "connection").mp (others h inside)

/-- A header that is read for the host is not closed. -/
theorem closed_host {h : Header} (named : h.line.Named "host") : h.closed = h := by
  apply h.closed_of_not_named
  have host := (strcasecmp_eq_zero h.noNul.1 (by decide)).mp named
  intro connection
  have other := (strcasecmp_eq_zero h.noNul.1 (by decide)).mp connection
  exact absurd (host.symm.trans other) (by decide)

theorem hostOf_closed (headers : List Header) :
    hostOf ((headers.map Header.closed).map Header.line) = hostOf (headers.map Header.line) := by
  induction headers with
  | nil => rfl
  | cons h headers ih =>
    simp only [List.map_cons,hostOf,ih,h.closed_named "host"]
    by_cases named : h.line.Named "host"
    · rw [closed_host named]
    · rw [if_neg named,if_neg named]

theorem host_forwarded (r : Request) : r.forwarded.host = r.host := by
  show (hostOf ((r.headers.map Header.closed).map Header.line)).getD [] = _
  rw [hostOf_closed,host]

theorem closed_length {h : Header} (room : h.line.Named "connection" → 5 ≤ h.value.length) :
    h.closed.text.length ≤ h.text.length := by
  by_cases named : h.line.Named "connection"
  · have five : (ascii "close").length = 5 := by decide
    have long := room named
    rw [Header.closed,if_pos named]
    simp only [Header.text,List.length_append,List.length_cons,five]
    omega
  · rw [h.closed_of_not_named named]

theorem unlines_length_le {headers : List Header} (shorter : ∀ h ∈ headers, h.closed.text.length ≤ h.text.length) :
    (unlines 13 10 ((headers.map Header.closed).map Header.text)).length ≤
      (unlines 13 10 (headers.map Header.text)).length := by
  induction headers with
  | nil => exact Nat.le_refl _
  | cons h headers ih =>
    obtain ⟨here,others⟩ := List.forall_mem_cons.mp shorter
    have onward := ih others
    simp only [List.map_cons,unlines_cons,List.length_append,List.length_cons]
    omega

/-- The edits do not make a request longer. -/
theorem forwarded_length (closes : r.ClosesLast) : r.forwarded.text.length ≤ r.text.length := by
  have target : r.target.path.length ≤ r.target.text.length := (path_suffix _ _).length_le
  have version : r.version.text.length = (Version.http11).text.length := by cases r.version <;> decide
  have headers : (unlines 13 10 ((r.headers.map Header.closed).map Header.text)).length ≤
      (unlines 13 10 (r.headers.map Header.text)).length := by
    apply unlines_length_le
    obtain ⟨before,c,behind,split,_,five,settled,others⟩ := closes
    intro h member
    rw [split] at member
    rcases List.mem_append.mp member with front | back
    · rw [settled h front]
    · rcases List.mem_cons.mp back with rfl | back
      · exact closed_length fun _ => five
      · exact closed_length fun named => absurd named (others h back)
  have forwarded : r.forwarded.text = ascii "GET " ++ (r.target.path ++ 32 :: (Version.http11).text) ++ 13 :: 10 ::
      (unlines 13 10 ((r.headers.map Header.closed).map Header.text) ++ 13 :: 10 :: r.body) := rfl
  rw [forwarded,text,firstLine]
  simp only [List.length_append,List.length_cons]
  omega

example : browsing.forwarded.text =
    ascii "GET /c HTTP/1.1\r\nHost: a.b\r\nConnection: close\r\n\r\n" := by decide

theorem browsing_rewritable : Rewritable browsing := by
  have version : ¬ ascii "HTTP/1.0" <:+: browsing.target.text := by decide +kernel
  have closes : browsing.ClosesLast := by
    refine ⟨[hostHeader],keepAlive,[],rfl,by decide,by decide,?_,by simp⟩
    intro h member
    rw [List.mem_singleton.mp member]
    exact hostHeader.closed_of_not_named (by decide)
  refine ⟨fun _ => version,closes,?_⟩
  intro is
  cases is

/-- What the handler makes of a request. -/
structure Forwards (r : Request) : Prop where
  edits : Makes r.text r.forwarded.text r.host
  shorter : r.forwarded.text.length ≤ r.text.length
  again : urlSpan r.forwarded.text = none → Makes r.forwarded.text r.forwarded.text r.host

/-- The handler makes of the text of a request the text of the request that is meant
    for the server, which is not longer. When no URL is left in it, it goes through any
    other proxy unchanged, to the same host. -/
theorem handler_forwards (rewritable : Rewritable r) : Forwards r := by
  constructor
  case edits => exact makes_forwarded rewritable
  case shorter => exact forwarded_length rewritable.connection
  case again =>
    intro clear
    have again := makes_forwarded (rewritable_forwarded rewritable clear)
    rwa [forwarded_forwarded,host_forwarded] at again

theorem handler_forwards_browsing : Forwards browsing := handler_forwards browsing_rewritable

end Request

end Os5Sem.Messages
