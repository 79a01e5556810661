import Os5Sem.Lines
import Os5Sem.RequestText

/-!
The request line as `parse_request_line` reads it: three conversions of `sscanf`
split the text into white space and tokens (`Parts`). Which texts it takes
(`accepts_iff_grammar`), and where it writes the version (`upgrade_iff`).
-/
namespace Os5Sem.RequestLine
open Os5Sem.Occurrences Os5Sem.Lines Os5Sem.CMemory Os5Sem.Handler Os5Sem.RequestText

/-! ### The three tokens -/

/-- What the conversions skip and store, and the text behind them. -/
structure Parts where
  lead : List Byte
  method : List Byte
  gap : List Byte
  url : List Byte
  gap' : List Byte
  version : List Byte
  behind : List Byte
deriving DecidableEq

namespace Parts

/-- The text behind the method, and behind the URL. -/
def afterUrl (p : Parts) : List Byte := p.gap' ++ (p.version ++ p.behind)
def afterMethod (p : Parts) : List Byte := p.gap ++ (p.url ++ p.afterUrl)

def text (p : Parts) : List Byte := p.lead ++ (p.method ++ p.afterMethod)

/-- Where the version stands in the text. -/
def versionAt (p : Parts) : Nat :=
  p.lead.length + p.method.length + p.gap.length + p.url.length + p.gap'.length

structure Scanned (p : Parts) : Prop where
  lead : ∀ c ∈ p.lead, isSpace c = true
  method : Token 15 p.method p.afterMethod
  gap : ∀ c ∈ p.gap, isSpace c = true
  url : Token 2047 p.url p.afterUrl
  gap' : ∀ c ∈ p.gap', isSpace c = true
  version : Token 11 p.version p.behind

/-- The comparisons of `parse_request_line` let the request line through. -/
def Taken (p : Parts) : Prop :=
  strncmp p.method (ascii "GET") 3 = 0 ∧
    (strncmp p.version (ascii "HTTP/1.0") 8 = 0 ∨ strncmp p.version (ascii "HTTP/1.1") 8 = 0)

instance {p : Parts} : Decidable p.Taken := inferInstanceAs (Decidable (_ ∧ _))

end Parts

def parts (text : List Byte) : Option Parts := do
  let (method,text') ← scanString 15 text
  let (url,text'') ← scanString 2047 text'
  let (version,behind) ← scanString 11 text''
  return ⟨text.takeWhile isSpace,method,text'.takeWhile isSpace,url,text''.takeWhile isSpace,version,behind⟩

theorem takeWhile_isSpace {width : Nat} {spaces token rest : List Byte} (white : ∀ c ∈ spaces, isSpace c = true)
    (isToken : Token width token rest) : (spaces ++ (token ++ rest)).takeWhile isSpace = spaces := by
  obtain ⟨c,token,rfl⟩ := List.exists_cons_of_ne_nil isToken.filled
  rw [List.takeWhile_append_of_pos white,List.cons_append,List.takeWhile_cons_of_neg,List.append_nil]
  simp [isToken.solid c List.mem_cons_self]

theorem parts_eq_some {text : List Byte} {p : Parts} : parts text = some p ↔ text = p.text ∧ p.Scanned := by
  constructor
  · intro is
    obtain ⟨⟨method,text'⟩,first,is⟩ := Option.bind_eq_some_iff.mp is
    obtain ⟨⟨url,text''⟩,second,is⟩ := Option.bind_eq_some_iff.mp is
    obtain ⟨⟨version,behind⟩,third,is⟩ := Option.bind_eq_some_iff.mp is
    obtain ⟨lead,rfl,white,method⟩ := scanString_eq_some.mp first
    obtain ⟨gap,rfl,white',url⟩ := scanString_eq_some.mp second
    obtain ⟨gap',rfl,white'',version⟩ := scanString_eq_some.mp third
    simp only [Option.pure_def,Option.some.injEq,takeWhile_isSpace white method,takeWhile_isSpace white' url,
      takeWhile_isSpace white'' version] at is
    subst is
    exact ⟨rfl,white,method,white',url,white'',version⟩
  · rintro ⟨rfl,scanned⟩
    have first : scanString 15 p.text = some (p.method,p.afterMethod) :=
      scanString_eq_some.mpr ⟨p.lead,rfl,scanned.lead,scanned.method⟩
    have second : scanString 2047 p.afterMethod = some (p.url,p.afterUrl) :=
      scanString_eq_some.mpr ⟨p.gap,rfl,scanned.gap,scanned.url⟩
    have third : scanString 11 p.afterUrl = some (p.version,p.behind) :=
      scanString_eq_some.mpr ⟨p.gap',rfl,scanned.gap',scanned.version⟩
    have lead : p.text.takeWhile isSpace = p.lead := takeWhile_isSpace scanned.lead scanned.method
    have gap : p.afterMethod.takeWhile isSpace = p.gap := takeWhile_isSpace scanned.gap scanned.url
    have gap' : p.afterUrl.takeWhile isSpace = p.gap' := takeWhile_isSpace scanned.gap' scanned.version
    simp only [parts,first,second,third,Option.bind_eq_bind,Option.bind_some,Option.pure_def,lead,gap,gap']

theorem scanRequestLine_parts (text : List Byte) :
    scanRequestLine text = (parts text).map fun p => (p.method,p.url,p.version) := by
  rw [scanRequestLine,parts]
  cases scanString 15 text with
  | none => rfl
  | some first =>
    obtain ⟨method,text'⟩ := first
    simp only [Option.bind_eq_bind,Option.bind_some]
    cases scanString 2047 text' with
    | none => rfl
    | some second =>
      obtain ⟨url,text''⟩ := second
      simp only [Option.bind_some]
      cases scanString 11 text'' <;> rfl

variable {text : List Byte} {p : Parts}

/-- The text from the version on. -/
theorem drop_versionAt (p : Parts) : p.text.drop p.versionAt = p.version ++ p.behind := by
  have split : p.text = (p.lead ++ p.method ++ p.gap ++ p.url ++ p.gap') ++ (p.version ++ p.behind) := by
    simp [Parts.text,Parts.afterMethod,Parts.afterUrl]
  rw [split]
  exact List.drop_left' (by simp [Parts.versionAt,Nat.add_assoc])

/-- `parse_request_line` writes the version where its text occurs first, or refuses
    and leaves the buffer alone. -/
theorem parseRequestLine_parts (noNul : 0 ∉ text) (rest : List Byte) :
    (∃ p q, parts text = some p ∧ p.Taken ∧ search p.version text = some q ∧
      parseRequestLine (text ++ 0 :: rest) = some (.ok (),overwrite text q (ascii "HTTP/1.1") ++ 0 :: rest)) ∨
    (∀ p, parts text = some p → ¬ p.Taken) ∧
      ∃ message, parseRequestLine (text ++ 0 :: rest) = some (.error message,text ++ 0 :: rest) := by
  rcases parseRequestLine_text noNul rest with ⟨message,refused,none⟩ | ⟨first,parsed,is⟩
  · refine .inr ⟨fun p isParts taken => ?_,message,refused⟩
    have inside : p.version <:+: text := by
      refine @version_inside _ p.method p.url p.version ?_
      rw [scanRequestLine_parts,isParts]
      rfl
    obtain ⟨q,found⟩ := search_of_inside inside
    obtain ⟨get,known⟩ := taken
    rw [versioned,scanRequestLine_parts,isParts] at none
    simp only [Option.map_some,Option.bind_eq_bind,Option.bind_some,get,found,ne_eq,not_true_eq_false,if_false] at none
    rw [if_neg fun both => known.elim both.1 both.2] at none
    cases none
  · rw [versioned,scanRequestLine_parts] at is
    obtain ⟨⟨method,url,version⟩,scanned,is⟩ := Option.bind_eq_some_iff.mp is
    obtain ⟨p,isParts,same⟩ := Option.map_eq_some_iff.mp scanned
    cases same
    simp only at is
    split at is
    · cases is
    rename_i get
    split at is
    · cases is
    rename_i known
    obtain ⟨q,found,rfl⟩ := Option.map_eq_some_iff.mp is
    exact .inl ⟨p,q,isParts,⟨not_not.mp get,or_iff_not_and_not.mpr known⟩,found,parsed⟩

theorem accepts_iff_taken (noNul : 0 ∉ text) (rest : List Byte) :
    (∃ after, parseRequestLine (text ++ 0 :: rest) = some (.ok (),after)) ↔ ∃ p, parts text = some p ∧ p.Taken := by
  rcases parseRequestLine_parts noNul rest with ⟨p,q,isParts,taken,_,parsed⟩ | ⟨refuses,message,refused⟩
  · exact iff_of_true ⟨_,parsed⟩ ⟨p,isParts,taken⟩
  · refine iff_of_false (fun ⟨after,is⟩ => ?_) fun ⟨p,isParts,taken⟩ => refuses p isParts taken
    rw [refused] at is
    cases is

/-! ### The grammar of the request line -/

/-- The bytes before the first CRLF, or all of them. -/
def firstLine (text : List Byte) : List Byte :=
  match search crlf text with
  | some line_end => text.take line_end
  | none => text

/-- The first line is `GET`, a URL and one of the two versions, with spaces between
    them. -/
def Grammar (text : List Byte) : Prop :=
  ∃ url version, words 32 (firstLine text) = [ascii "GET",url,version] ∧ 1 ≤ url.length ∧ url.length ≤ 2047 ∧
    (∀ c ∈ url, isSpace c = false) ∧ (version = ascii "HTTP/1.0" ∨ version = ascii "HTTP/1.1")

/-- The conversions have read whole tokens with nothing but spaces between them, and
    the first line ends behind them. -/
structure Parts.Exact (p : Parts) : Prop where
  method : p.method.length = 3
  version : p.version.length = 8
  spaces : ∀ c ∈ p.lead ++ p.gap ++ p.gap', c = 32
  apart : p.gap' ≠ []
  last : ∀ c ∈ firstLine p.behind, c = 32

theorem firstLine_append {front : List Byte} (absent : 13 ∉ front) (behind : List Byte) :
    firstLine (front ++ behind) = front ++ firstLine behind := by
  rw [firstLine,search_skip (a := 13) (by decide) absent,firstLine]
  cases search crlf behind with
  | none => rfl
  | some e =>
    simp only [Option.map_some]
    rw [Nat.add_comm,List.take_length_add_append]

/-- Behind the first line there is a CRLF, or nothing. -/
theorem firstLine_split (text : List Byte) : ∃ tail, text = firstLine text ++ tail ∧ (∀ c ∈ tail.head?, c = 13) ∧
    firstLine tail = [] := by
  unfold firstLine
  cases found : search crlf text with
  | none => exact ⟨[],(List.append_nil text).symm,nofun,rfl⟩
  | some e =>
    obtain ⟨behind,is⟩ := (search_eq_some.mp found).2.1
    refine ⟨text.drop e,(List.take_append_drop e text).symm,?_,?_⟩
    · rintro c first
      rw [← is] at first
      exact (Option.some.inj first).symm
    · have here : search crlf (text.drop e) = some 0 := search_eq_some.mpr ⟨Nat.zero_le _,⟨behind,is⟩,nofun⟩
      rw [here]
      rfl

theorem not_mem_of_solid {token : List Byte} (solid : ∀ c ∈ token, isSpace c = false) {c : Byte}
    (white : isSpace c = true) : c ∉ token := by
  intro member
  rw [solid c member] at white
  cases white

/-- There is white space between two tokens that have not been cut. -/
theorem gap_filled {width width' : Nat} {token gap token' rest : List Byte}
    (isToken : Token width token (gap ++ (token' ++ rest))) (whole : token.length ≠ width)
    (next : Token width' token' rest) : gap ≠ [] := by
  rintro rfl
  obtain ⟨c,more,rfl⟩ := List.exists_cons_of_ne_nil next.filled
  have white := isToken.ends.resolve_left whole c rfl
  rw [next.solid c List.mem_cons_self] at white
  cases white

theorem head_of_filled {gap behind : List Byte} (filled : gap ≠ []) (all : ∀ c ∈ gap, c = 32) :
    ∀ c ∈ (gap ++ behind).head?, c = 32 := by
  obtain ⟨d,gap,rfl⟩ := List.exists_cons_of_ne_nil filled
  rintro c first
  obtain rfl := Option.some.inj first
  exact all _ List.mem_cons_self

theorem grammar_of_exact (scanned : p.Scanned) (noNul : 0 ∉ p.text) (taken : p.Taken) (exact' : p.Exact) :
    Grammar p.text := by
  obtain ⟨three,eight,spaces,apart,last⟩ := exact'
  simp only [List.mem_append,or_imp,forall_and] at spaces
  obtain ⟨⟨lead,gap⟩,gap'⟩ := spaces
  have noReturn : ∀ {s : List Byte}, (∀ c ∈ s, c = 32) → 13 ∉ s := fun all member => absurd (all 13 member) (by decide)
  have solidReturn : ∀ {s : List Byte}, (∀ c ∈ s, isSpace c = false) → 13 ∉ s := fun solid =>
    not_mem_of_solid solid (by decide)
  have solidSpace : ∀ {s : List Byte}, (∀ c ∈ s, isSpace c = false) → 32 ∉ s := fun solid =>
    not_mem_of_solid solid (by decide)
  have line : firstLine p.text =
      p.lead ++ (p.method ++ (p.gap ++ (p.url ++ (p.gap' ++ (p.version ++ firstLine p.behind))))) := by
    rw [Parts.text,firstLine_append (noReturn lead),firstLine_append (solidReturn scanned.method.solid),
      Parts.afterMethod,firstLine_append (noReturn gap),firstLine_append (solidReturn scanned.url.solid),
      Parts.afterUrl,firstLine_append (noReturn gap'),firstLine_append (solidReturn scanned.version.solid)]
  have filled : p.gap ≠ [] := gap_filled scanned.method (by omega) scanned.url
  have noNulMethod : 0 ∉ p.method := fun member => noNul (by simp [Parts.text,member])
  have noNulVersion : 0 ∉ p.version := fun member => noNul (by simp [Parts.text,Parts.afterMethod,
    Parts.afterUrl,member])
  have method : p.method = ascii "GET" := eq_of_strncmp noNulMethod (by decide) three (by decide) taken.1
  have version : p.version = ascii "HTTP/1.0" ∨ p.version = ascii "HTTP/1.1" :=
    taken.2.imp (eq_of_strncmp noNulVersion (by decide) eight (by decide))
      (eq_of_strncmp noNulVersion (by decide) eight (by decide))
  refine ⟨p.url,p.version,?_,List.length_pos_iff.mpr scanned.url.filled,scanned.url.short,scanned.url.solid,version⟩
  rw [line,words_seps lead,words_word scanned.method.filled (solidSpace scanned.method.solid)
    (head_of_filled filled gap),
    words_seps gap,words_word scanned.url.filled (solidSpace scanned.url.solid) (head_of_filled apart gap'),
    words_seps gap',words_word scanned.version.filled (solidSpace scanned.version.solid) fun c first =>
      last c (List.mem_of_mem_head? first),words_eq_nil.mpr last,method]

/-- A word that ends in the line ends as a token does. -/
theorem head_white {behind tail : List Byte} (ends : ∀ c ∈ behind.head?, c = 32) (cut : ∀ c ∈ tail.head?, c = 13) :
    ∀ c ∈ (behind ++ tail).head?, isSpace c = true := by
  intro c first
  cases behind with
  | nil => rw [cut c first]; decide
  | cons d behind =>
    obtain rfl := Option.some.inj first
    rw [ends d rfl]
    decide

theorem exact_of_grammar (grammar : Grammar text) : ∃ p, parts text = some p ∧ p.Taken ∧ p.Exact := by
  obtain ⟨url,version,line,_,short,solid,known⟩ := grammar
  obtain ⟨tail,split,cut,over'⟩ := firstLine_split text
  obtain ⟨lead,behind,isLine,lead_all,some,_,ends,line⟩ := words_eq_cons.mp line
  obtain ⟨gap,behind',rfl,gap_all,some',whole',ends',line⟩ := words_eq_cons.mp line
  obtain ⟨gap',behind'',rfl,gap_all',some'',whole'',ends'',line⟩ := words_eq_cons.mp line
  have spaces := words_eq_nil.mp line
  have white : ∀ {s : List Byte}, (∀ c ∈ s, c = 32) → ∀ c ∈ s, isSpace c = true := by
    intro s all c member
    rw [all c member]
    decide
  have solidVersion : ∀ c ∈ version, isSpace c = false := by
    rcases known with rfl | rfl <;> decide +kernel
  have eight : version.length = 8 := by
    rcases known with rfl | rfl <;> decide
  have eleven : version.length ≤ 11 := by omega
  have solidGet : ∀ c ∈ ascii "GET", isSpace c = false := by decide +kernel
  have shortGet : (ascii "GET").length ≤ 15 := by decide
  have taken : strncmp (ascii "GET") (ascii "GET") 3 = 0 ∧
      (strncmp version (ascii "HTTP/1.0") 8 = 0 ∨ strncmp version (ascii "HTTP/1.1") 8 = 0) := by
    refine ⟨by decide,?_⟩
    rcases known with rfl | rfl
    · exact .inl (by decide)
    · exact .inr (by decide)
  have apart : gap' ≠ [] := by
    rintro rfl
    obtain ⟨c,more,rfl⟩ := List.exists_cons_of_ne_nil some''
    exact whole'' (by rw [← ends' c rfl]; exact List.mem_cons_self)
  have assoc : lead ++ (ascii "GET" ++ (gap ++ (url ++ (gap' ++ (version ++ behind''))))) ++ tail =
      (⟨lead,ascii "GET",gap,url,gap',version,behind'' ++ tail⟩ : Parts).text := by
    simp [Parts.text,Parts.afterMethod,Parts.afterUrl]
  have afterMethod : (⟨lead,ascii "GET",gap,url,gap',version,behind'' ++ tail⟩ : Parts).afterMethod =
      (gap ++ (url ++ (gap' ++ (version ++ behind'')))) ++ tail := by
    simp [Parts.afterMethod,Parts.afterUrl]
  have afterUrl : (⟨lead,ascii "GET",gap,url,gap',version,behind'' ++ tail⟩ : Parts).afterUrl =
      (gap' ++ (version ++ behind'')) ++ tail := by
    simp [Parts.afterUrl]
  refine ⟨⟨lead,ascii "GET",gap,url,gap',version,behind'' ++ tail⟩,parts_eq_some.mpr ⟨?_,?_⟩,?_,?_⟩
  · rw [← assoc,← isLine]
    exact split
  · constructor
    case lead => exact white lead_all
    case method =>
      rw [afterMethod]
      exact ⟨some,solidGet,shortGet,.inr (head_white ends cut)⟩
    case gap => exact white gap_all
    case url =>
      rw [afterUrl]
      exact ⟨some',solid,short,.inr (head_white ends' cut)⟩
    case gap' => exact white gap_all'
    case version => exact ⟨some'',solidVersion,eleven,.inr (head_white ends'' cut)⟩
  · exact taken
  · constructor
    case method => rfl
    case version => exact eight
    case spaces =>
      intro c member
      rcases List.mem_append.mp member with front | back
      · exact (List.mem_append.mp front).elim (lead_all c) (gap_all c)
      · exact gap_all' c back
    case apart => exact apart
    case last =>
      intro c member
      have noReturn : 13 ∉ behind'' := fun member => absurd (spaces 13 member) (by decide)
      rw [firstLine_append noReturn,over',List.append_nil] at member
      exact spaces c member

/-- `parse_request_line` takes the texts of the grammar. It takes no other exactly
    when whatever it takes has been read as whole tokens with spaces between them. -/
theorem accepts_iff_grammar (noNul : 0 ∉ text) (rest : List Byte) :
    ((∃ after, parseRequestLine (text ++ 0 :: rest) = some (.ok (),after)) ↔ Grammar text) ↔
      ∀ p, parts text = some p → p.Taken → p.Exact := by
  rw [accepts_iff_taken noNul rest]
  constructor
  · intro same p isParts taken
    obtain ⟨p',isParts',_,exact'⟩ := exact_of_grammar (same.mp ⟨p,isParts,taken⟩)
    rwa [Option.some.inj (isParts.symm.trans isParts')]
  · intro cond
    constructor
    · rintro ⟨p,isParts,taken⟩
      obtain ⟨rfl,scanned⟩ := parts_eq_some.mp isParts
      exact grammar_of_exact scanned noNul taken (cond p isParts taken)
    · intro grammar
      obtain ⟨p,isParts,taken,_⟩ := exact_of_grammar grammar
      exact ⟨p,isParts,taken⟩

/-- The method only begins with `GET`. -/
def longMethod : List Byte := ascii "GETX / HTTP/1.0\r\nHost: a\r\n\r\n"

theorem accepts_longMethod :
    ¬ ((∃ after, parseRequestLine (longMethod ++ [0]) = some (.ok (),after)) ↔ Grammar longMethod) := by
  intro same
  have accepted : parseRequestLine (longMethod ++ [0]) =
      some (.ok (),ascii "GETX / HTTP/1.1\r\nHost: a\r\n\r\n" ++ [0]) := by decide
  obtain ⟨url,version,line,_⟩ := same.mp ⟨_,accepted⟩
  have read : words 32 (firstLine longMethod) = [ascii "GETX",ascii "/",ascii "HTTP/1.0"] := by decide +kernel
  rw [read] at line
  exact absurd (List.cons.inj line).1 (by decide)

theorem accepts_iff_grammar_longMethod :
    ((∃ after, parseRequestLine (longMethod ++ [0]) = some (.ok (),after)) ↔ Grammar longMethod) ↔
      ∀ p, parts longMethod = some p → p.Taken → p.Exact :=
  accepts_iff_grammar (by decide) []

/-! ### The version -/

/-- The version of the request line, and nothing else, becomes `HTTP/1.1`; where the
    request line is refused, nothing is written. -/
def Upgraded (text rest : List Byte) : Except (List Byte) Unit → List Byte → Prop
  | .error _, after => after = text ++ 0 :: rest
  | .ok _, after =>
    ∃ p, parts text = some p ∧ after = overwrite text p.versionAt (ascii "HTTP/1.1") ++ 0 :: rest

/-- What eight bytes at the start of a version that is taken are. -/
theorem eight_of_taken (noNul : 0 ∉ p.version) {version : List Byte} (whole : version.length = 8)
    (clean : 0 ∉ version) :
    strncmp p.version version 8 = 0 ↔ version <+: p.version := by
  rw [strncmp_eq_zero noNul clean,List.take_of_length_le (Nat.le_of_eq whole),List.prefix_iff_eq_take,whole]
  exact eq_comm

/-- Where `HTTP/1.0` stands, writing `HTTP/1.1` in front of it does not change its
    last byte. -/
theorem overwrite_ne {q at' : Nat} (before : q < at') (here : ascii "HTTP/1.0" <+: text.drop at') :
    overwrite text q (ascii "HTTP/1.1") ≠ overwrite text at' (ascii "HTTP/1.1") := by
  intro same
  have short := here.length_le
  have eight : (ascii "HTTP/1.1").length = 8 := by decide
  have eight' : (ascii "HTTP/1.0").length = 8 := by decide
  rw [eight',List.length_drop] at short
  have last : text[at'+7]? = some 48 := by
    have byte := (List.prefix_iff_getElem?.mp here) 7 (by decide)
    rw [List.getElem?_drop] at byte
    rw [byte]
    decide
  have one := congrArg (·[at'+7]?) same
  rw [overwrite_getElem? (by omega),if_neg (by omega),overwrite_getElem? (by omega),if_pos (by omega),last,
    Nat.add_sub_cancel_left] at one
  exact absurd one (by decide)

/-- The upgrade touches the version of the request line only, exactly when that
    version begins with `HTTP/1.1` or occurs nowhere before its place. -/
theorem upgrade_iff (noNul : 0 ∉ text) (rest : List Byte) :
    (∀ result after, parseRequestLine (text ++ 0 :: rest) = some (result,after) → Upgraded text rest result after) ↔
      ∀ p, parts text = some p → p.Taken →
        strncmp p.version (ascii "HTTP/1.1") 8 = 0 ∨ search p.version text = some p.versionAt := by
  rcases parseRequestLine_parts noNul rest with ⟨p,q,isParts,taken,found,parsed⟩ | ⟨refuses,message,refused⟩
  · obtain ⟨isText,scanned⟩ := parts_eq_some.mp isParts
    have own : p.version <+: text.drop p.versionAt := by
      rw [isText,drop_versionAt]
      exact List.prefix_append ..
    have noNulVersion : 0 ∉ p.version := fun member => noNul (List.mem_of_mem_drop (own.subset member))
    have first : q ≤ p.versionAt := by
      by_contra later
      exact (search_eq_some.mp found).2.2 p.versionAt (by omega) own
    constructor
    · intro upgraded p' isParts' _
      obtain rfl := Option.some.inj (isParts.symm.trans isParts')
      obtain ⟨p',isParts',same⟩ := upgraded _ _ parsed
      obtain rfl := Option.some.inj (isParts.symm.trans isParts')
      rcases taken.2 with zero | one
      · refine .inr (found.trans (congrArg some (first.eq_or_lt.resolve_right fun before => ?_)))
        have here := ((eight_of_taken noNulVersion (by decide) (by decide)).mp zero).trans own
        exact overwrite_ne before here (List.append_cancel_right same)
      · exact .inl one
    · intro cond result after is
      obtain ⟨rfl,rfl⟩ := Prod.mk.inj (Option.some.inj (parsed.symm.trans is))
      refine ⟨p,isParts,?_⟩
      rcases cond p isParts taken with one | here
      · have start := (eight_of_taken noNulVersion (by decide) (by decide)).mp one
        rw [overwrite_same (start.trans own),overwrite_same (start.trans (search_eq_some.mp found).2.1)]
      · rw [Option.some.inj (found.symm.trans here)]
  · constructor
    · intro _ p isParts taken
      exact absurd taken (refuses p isParts)
    · intro _ result after is
      obtain ⟨rfl,rfl⟩ := Prod.mk.inj (Option.some.inj (refused.symm.trans is))
      exact rfl

/-- The version occurs in the URL. -/
def versionInUrl : List Byte := ascii "GET /HTTP/1.0 HTTP/1.0\r\nHost: a\r\n\r\n"

theorem upgrade_misses : parseRequestLine (versionInUrl ++ [0]) =
      some (.ok (),ascii "GET /HTTP/1.1 HTTP/1.0\r\nHost: a\r\n\r\n" ++ [0]) ∧
    ¬ ∀ result after, parseRequestLine (versionInUrl ++ [0]) = some (result,after) →
      Upgraded versionInUrl [] result after := by
  have parsed : parseRequestLine (versionInUrl ++ [0]) =
      some (.ok (),ascii "GET /HTTP/1.1 HTTP/1.0\r\nHost: a\r\n\r\n" ++ [0]) := by decide
  refine ⟨parsed,fun upgraded => ?_⟩
  obtain ⟨p,isParts,same⟩ := upgraded _ _ parsed
  have at' : (parts versionInUrl).map Parts.versionAt = some 14 := by decide
  rw [isParts] at at'
  rw [Option.some.inj at'] at same
  exact absurd same (by decide)

theorem upgrade_iff_inUrl :
    (∀ result after, parseRequestLine (versionInUrl ++ [0]) = some (result,after) →
      Upgraded versionInUrl [] result after) ↔
      ∀ p, parts versionInUrl = some p → p.Taken →
        strncmp p.version (ascii "HTTP/1.1") 8 = 0 ∨ search p.version versionInUrl = some p.versionAt :=
  upgrade_iff (by decide) []

end Os5Sem.RequestLine
