import Os5Sem.HeaderReading
import Os5Sem.Lines

/-!
The header section by its lines, from the first CRLF to the first empty line,
against what the loop of `parse_headers` reads. The loop looks for a colon beyond
the end of a line: it reads a line without one together with the lines behind it
(`joined`), and beyond the empty line when there is none in the section.
-/
namespace Os5Sem.HeaderGrammar
open Os5Sem.Occurrences Os5Sem.Lines Os5Sem.CMemory Os5Sem.Handler Os5Sem.RequestText Os5Sem.HeaderReading

/-- A line of the section, without its CRLF: a name of 1 to 255 bytes before its
    first colon, and behind spaces a value of 1 to 2047 bytes. -/
def lineOf (l : List Byte) : Option HeaderLine :=
  match search [58] l with
  | none => none
  | some colon =>
    if colon = 0 ∨ hNameSize ≤ colon then none
    else
      let spaces := leadingSpaces (l.drop (colon+1))
      let value := l.drop (colon+1+spaces)
      if value.length = 0 ∨ hValSize ≤ value.length then none else some ⟨l.take colon,spaces,value⟩

/-- The lines of the section are headers with a host among them, the last of which
    has this value. -/
def Grammar (text value : List Byte) : Prop :=
  ∃ first ls body lines, sectionOf 13 10 text = some (first,ls,body) ∧ ls.map lineOf = lines.map some ∧
    hostOf lines = some value

/-- The lines as the loop takes them together, each with a colon, and those at the
    end that have none. -/
def joined : List (List Byte) → List (List Byte) × List Byte
  | [] => ([],[])
  | l :: ls =>
    if 58 ∈ l then (l :: (joined ls).1,(joined ls).2)
    else match joined ls with
      | (g :: groups,pending) => ((l ++ 13 :: 10 :: g) :: groups,pending)
      | ([],pending) => ([],l ++ 13 :: 10 :: pending)

variable {text text' first body g l pending : List Byte} {ls groups : List (List Byte)} {lines : List HeaderLine}
  {line : HeaderLine}

theorem crlf_eq : crlf = [13,10] := by decide

theorem sectioned_iff : sectionOf 13 10 text = some (first,ls,body) ↔ Sectioned 13 10 text first ls body :=
  sectionOf_eq_some (by decide)

/-- What the loop takes for one header: a colon with no line end behind it, and no
    empty line at its start. -/
structure Group (g : List Byte) : Prop where
  colon : ∃ k, search [58] g = some k ∧ Clean 13 10 (g.drop (k+1))
  started : ∀ behind, ¬ [13,10] <+: g ++ 13 :: 10 :: behind

theorem clean_drop (clean : Clean 13 10 l) (k : Nat) : Clean 13 10 (l.drop k) :=
  fun inside => clean (inside.trans (List.drop_suffix k l).isInfix)

theorem headerLine_group (isGroup : Group g) (behind : List Byte) : headerLine (g ++ 13 :: 10 :: behind) = lineOf g :=
    by
  obtain ⟨⟨k,found,clean⟩,_⟩ := isGroup
  have inside := search_bound found
  rw [List.length_singleton] at inside
  have spaces_eq : leadingSpaces ((g ++ 13 :: 10 :: behind).drop (k+1)) = leadingSpaces (g.drop (k+1)) := by
    rw [List.drop_append_of_le_length inside]
    exact leadingSpaces_append (by decide) _
  have spacesIn : leadingSpaces (g.drop (k+1)) ≤ g.length - (k+1) := by
    have := (List.takeWhile_prefix (· = 32) (l := g.drop (k+1))).length_le
    rwa [List.length_drop] at this
  rw [headerLine,lineOf,search_append found,found]
  simp only [spaces_eq]
  generalize leadingSpaces (g.drop (k+1)) = spaces at spacesIn
  have drops : (g ++ 13 :: 10 :: behind).drop (k+1+spaces) = g.drop (k+1+spaces) ++ 13 :: 10 :: behind :=
    List.drop_append_of_le_length (by omega)
  have clean' : Clean 13 10 (g.drop (k+1+spaces)) := by
    rw [← List.drop_drop]
    exact clean_drop clean spaces
  rw [drops,crlf_eq,search_line (by decide) clean',List.take_append_of_le_length (by omega)]
  simp only [slice,drops,List.take_left]

theorem lineOf_length (is : lineOf g = some line) : line.length = g.length + 2 := by
  unfold lineOf at is
  split at is
  · cases is
  rename_i colon found
  have inside := search_bound found
  split at is
  · cases is
  simp only at is
  split at is
  · cases is
  rename_i sizes
  cases is
  rw [List.length_drop] at sizes
  simp only [HeaderLine.length,HeaderLine.valueStart,List.length_take,List.length_drop]
  omega

/-! ### The lines that the loop takes together -/

theorem joined_split (ls : List (List Byte)) : unlines 13 10 ls = unlines 13 10 (joined ls).1 ++ (joined ls).2 := by
  induction ls with
  | nil => rfl
  | cons l ls ih =>
    rw [unlines_cons,ih,joined]
    split
    · simp
    · split
      · rename_i is
        simp [is]
      · rename_i is
        simp [is]

theorem group_of_line (clean : Clean 13 10 l) (filled : l ≠ []) (colon : 58 ∈ l) : Group l := by
  obtain ⟨front,back,split⟩ := List.append_of_mem colon
  obtain ⟨k,found⟩ := search_of_inside (⟨front,back,by simp [split]⟩ : [58] <:+: l)
  refine ⟨⟨k,found,clean_drop clean _⟩,fun behind => ?_⟩
  exact not_end_of_clean (by decide) clean (List.length_pos_iff.mpr filled)

theorem group_of_join (clean : Clean 13 10 l) (filled : l ≠ []) (none : 58 ∉ l) (isGroup : Group g) :
    Group (l ++ 13 :: 10 :: g) := by
  obtain ⟨⟨k,found,cleans⟩,_⟩ := isGroup
  have absent : 58 ∉ l ++ [13,10] := by simpa using none
  have split : l ++ 13 :: 10 :: g = (l ++ [13,10]) ++ g := by simp
  refine ⟨⟨k+(l ++ [13,10]).length,?_,?_⟩,fun behind => ?_⟩
  · rw [split,search_skip (a := 58) rfl absent,found]
    rfl
  · rw [split,Nat.add_right_comm,Nat.add_comm,← List.drop_drop,List.drop_left]
    exact cleans
  · rw [List.append_assoc,List.cons_append]
    exact not_end_of_clean (by decide) clean (List.length_pos_iff.mpr filled)

theorem joined_groups (clean : ∀ l ∈ ls, Clean 13 10 l) (filled : ∀ l ∈ ls, l ≠ []) :
    ∀ g ∈ (joined ls).1, Group g := by
  induction ls with
  | nil => exact nofun
  | cons l ls ih =>
    obtain ⟨clean_l,cleans⟩ := List.forall_mem_cons.mp clean
    obtain ⟨filled_l,filleds⟩ := List.forall_mem_cons.mp filled
    have groups := ih cleans filleds
    rw [joined]
    split
    · rename_i colon
      exact List.forall_mem_cons.mpr ⟨group_of_line clean_l filled_l colon,groups⟩
    · rename_i none
      split
      · rename_i is
        rw [is] at groups
        obtain ⟨group,others⟩ := List.forall_mem_cons.mp groups
        exact List.forall_mem_cons.mpr ⟨group_of_join clean_l filled_l none group,others⟩
      · exact nofun

/-- What is left at the end has no colon, and does not begin with an empty line. -/
theorem joined_pending (clean : ∀ l ∈ ls, Clean 13 10 l) (filled : ∀ l ∈ ls, l ≠ []) :
    58 ∉ (joined ls).2 ∧ ((joined ls).2 ≠ [] → ∀ behind, ¬ [13,10] <+: (joined ls).2 ++ behind) := by
  induction ls with
  | nil => exact ⟨nofun,fun some => absurd rfl some⟩
  | cons l ls ih =>
    obtain ⟨clean_l,cleans⟩ := List.forall_mem_cons.mp clean
    obtain ⟨filled_l,filleds⟩ := List.forall_mem_cons.mp filled
    obtain ⟨free,started⟩ := ih cleans filleds
    rw [joined]
    split
    · exact ⟨free,started⟩
    · rename_i none
      split
      · rename_i is
        rw [is] at free started
        exact ⟨free,started⟩
      · rename_i is
        rw [is] at free
        refine ⟨by simpa [none] using free,fun _ behind => ?_⟩
        rw [List.append_assoc,List.cons_append]
        exact not_end_of_clean (by decide) clean_l (List.length_pos_iff.mpr filled_l)

/-- Lines that all have a colon are taken as they are. -/
theorem joined_of_colons (colons : ∀ l ∈ ls, 58 ∈ l) : joined ls = (ls,[]) := by
  induction ls with
  | nil => rfl
  | cons l ls ih =>
    obtain ⟨colon,others⟩ := List.forall_mem_cons.mp colons
    rw [joined,if_pos colon,ih others]

/-! ### Reading the section -/

/-- The header lines from a header on. -/
def readLines (text : List Byte) : Option (List HeaderLine) := scanLines (text.length+1) text

/-- The groups as headers, and then the headers that are read behind them. -/
def readAll (groups : List (List Byte)) (behind : Option (List HeaderLine)) : Option (List HeaderLine) :=
  groups.foldr (fun g lines => (lineOf g).bind fun line => lines.map (line :: ·)) behind

theorem readAll_eq_some {behind : Option (List HeaderLine)} : readAll groups behind = some lines ↔
    ∃ front back, groups.map lineOf = front.map some ∧ behind = some back ∧ lines = front ++ back := by
  induction groups generalizing lines with
  | nil =>
    constructor
    · intro is
      exact ⟨[],lines,rfl,is,rfl⟩
    · rintro ⟨front,back,none,is,rfl⟩
      rw [List.map_eq_nil_iff.mp none.symm]
      exact is
  | cons g groups ih =>
    rw [readAll,List.foldr_cons,Option.bind_eq_some_iff]
    constructor
    · rintro ⟨line,first,onward⟩
      obtain ⟨others,is,rfl⟩ := Option.map_eq_some_iff.mp onward
      obtain ⟨front,back,same,last,rfl⟩ := ih.mp is
      exact ⟨line :: front,back,by rw [List.map_cons,first,same]; rfl,last,rfl⟩
    · rintro ⟨front,back,same,is,rfl⟩
      obtain ⟨line,front,rfl⟩ := List.exists_cons_of_ne_nil (l := front) (by rintro rfl; cases same)
      rw [List.map_cons,List.map_cons,List.cons.injEq] at same
      have others := ih.mpr ⟨front,back,same.2,is,rfl⟩
      exact ⟨line,same.1,Option.map_eq_some_iff.mpr ⟨_,others,rfl⟩⟩

theorem readLines_blank (behind : List Byte) : readLines (13 :: 10 :: behind) = some [] := by
  rw [readLines,scanLines,if_pos (crlf_eq ▸ List.prefix_append [13,10] behind)]

theorem readLines_next (more : ¬ [13,10] <+: text) :
    readLines text = (headerLine text).bind fun line => (readLines (text.drop line.length)).map (line :: ·) := by
  rw [readLines,scanLines,if_neg (crlf_eq ▸ more)]
  cases first : headerLine text with
  | none => rfl
  | some line =>
    have lineIn := (startsWith_of_headerLine first).length_le
    have long : 0 < line.length := Nat.succ_pos _
    have enough : (text.drop line.length).length < text.length := by rw [List.length_drop]; omega
    simp only [Option.bind_eq_bind,Option.bind_some,Option.pure_def]
    rw [readLines,scanLines_fuel enough (Nat.lt_succ_self _)]
    exact (Option.map_eq_bind ..).symm

theorem readLines_groups (isGroup : ∀ g ∈ groups, Group g) (behind : List Byte) :
    readLines (unlines 13 10 groups ++ behind) = readAll groups (readLines behind) := by
  induction groups with
  | nil => rfl
  | cons g groups ih =>
    obtain ⟨group,others⟩ := List.forall_mem_cons.mp isGroup
    rw [unlines_cons,List.append_assoc,List.cons_append,List.cons_append,readLines_next (group.started _),
      headerLine_group group,readAll,List.foldr_cons]
    cases first : lineOf g with
    | none => rfl
    | some line =>
      have drops : (g ++ 13 :: 10 :: (unlines 13 10 groups ++ behind)).drop line.length =
          unlines 13 10 groups ++ behind := by
        rw [lineOf_length first,← List.drop_drop,List.drop_left]
        rfl
      rw [Option.bind_some,Option.bind_some,drops,ih others]
      rfl

theorem headerSection_of_sectioned (is : Sectioned 13 10 text first ls body) :
    headerSection text = (readAll (joined ls).1 (readLines ((joined ls).2 ++ 13 :: 10 :: body))).map
      fun lines => (first.length+2,lines) := by
  obtain ⟨rfl,clean,cleans,filled⟩ := is
  have behind : (first ++ 13 :: 10 :: (unlines 13 10 ls ++ 13 :: 10 :: body)).drop (first.length+2) =
      unlines 13 10 ls ++ 13 :: 10 :: body := by
    rw [← List.drop_drop,List.drop_left]
    rfl
  have enough : (unlines 13 10 ls ++ 13 :: 10 :: body).length <
      (first ++ 13 :: 10 :: (unlines 13 10 ls ++ 13 :: 10 :: body)).length + 1 := by
    simp only [List.length_append,List.length_cons]; omega
  rw [headerSection,crlf_eq,search_line (by decide) clean]
  simp only [Option.bind_eq_bind,Option.bind_some,Option.pure_def,behind]
  rw [scanLines_fuel enough (Nat.lt_succ_self _),← readLines,joined_split,List.append_assoc,
    readLines_groups (joined_groups cleans filled)]
  exact (Option.map_eq_bind ..).symm

/-! ### Which sections are read -/

/-- What is read is a list of headers; a host is among them, or can be behind the
    section when the loop goes on there. -/
structure Readable (ls : List (List Byte)) : Prop where
  headers : ∀ g ∈ (joined ls).1, lineOf g ≠ none
  host : (joined ls).2 = [] → ∃ g ∈ (joined ls).1, ∃ line, lineOf g = some line ∧ line.Named "host"
  short : (joined ls).2 ≠ [] → (joined ls).2.length + 2 < hNameSize

/-- The name of a header that is read over the end of the section begins with all
    that has no colon in it. -/
theorem pending_in_name (free : 58 ∉ pending) (is : headerLine (pending ++ 13 :: 10 :: body) = some line) :
    pending ++ [13,10] <+: line.name := by
  have starts := startsWith_of_headerLine is
  have split : pending ++ 13 :: 10 :: body = (pending ++ [13,10]) ++ body := by simp
  have absent : 58 ∉ pending ++ [13,10] := by simpa using free
  have found := starts.colon
  rw [split] at found
  rw [starts.name,split]
  exact prefix_of_search rfl absent found

theorem readable_of_reads {headers : Nat} {value : List Byte} (is : Sectioned 13 10 text first ls body)
    (reads : Reads text headers lines value) : Readable ls := by
  have read := reads.read
  rw [headerSection_of_sectioned is] at read
  obtain ⟨lines',read,same⟩ := Option.map_eq_some_iff.mp read
  cases same
  obtain ⟨front,back,heads,behind,rfl⟩ := readAll_eq_some.mp read
  obtain ⟨free,started⟩ := joined_pending is.clean is.filled
  constructor
  case headers =>
    intro g member none
    have inside := List.mem_map_of_mem (f := lineOf) member
    rw [heads,none] at inside
    obtain ⟨_,_,same⟩ := List.mem_map.mp inside
    cases same
  case host =>
    intro empty
    rw [empty,List.nil_append,readLines_blank] at behind
    cases behind
    have hosted := reads.host
    rw [List.append_nil] at hosted
    have some_host : ¬ ∀ line ∈ front, ¬ line.Named "host" := fun none => by
      rw [hostOf_eq_none.mpr none] at hosted
      cases hosted
    push Not at some_host
    obtain ⟨line,member,named⟩ := some_host
    have inside := List.mem_map_of_mem (f := some) member
    rw [← heads] at inside
    obtain ⟨g,member',is⟩ := List.mem_map.mp inside
    exact ⟨g,member',line,is,named⟩
  case short =>
    intro some
    rw [readLines_next (started some _)] at behind
    obtain ⟨line,is,_⟩ := Option.bind_eq_some_iff.mp behind
    have inside := (pending_in_name free is).length_le
    rw [List.length_append] at inside
    exact Nat.lt_of_le_of_lt inside (startsWith_of_headerLine is).short

theorem hostOf_append (front back : List HeaderLine) : hostOf (front ++ back) = (hostOf back).or (hostOf front) := by
  induction front with
  | nil => exact (Option.or_none).symm
  | cons line front ih => rw [List.cons_append,hostOf,hostOf,ih,Option.or_assoc]

theorem lines_of_headers (headers : ∀ g ∈ groups, lineOf g ≠ none) :
    ∃ lines : List HeaderLine, groups.map lineOf = lines.map some := by
  induction groups with
  | nil => exact ⟨[],rfl⟩
  | cons g groups ih =>
    obtain ⟨some_g,others⟩ := List.forall_mem_cons.mp headers
    obtain ⟨line,is⟩ := Option.ne_none_iff_exists'.mp some_g
    obtain ⟨lines,same⟩ := ih others
    exact ⟨line :: lines,by rw [List.map_cons,is,same]; rfl⟩

/-- A colon for the last lines of a section, and a host behind it. -/
def hostBehind : List Byte := ascii ": x\r\nHost: a\r\n\r\n"

theorem readLines_hostBehind (free : 58 ∉ pending) (started : ∀ behind, ¬ [13,10] <+: pending ++ behind)
    (short : pending.length + 2 < hNameSize) :
    readLines (pending ++ 13 :: 10 :: hostBehind) =
      some [⟨pending ++ [13,10],1,ascii "x"⟩,⟨ascii "Host",1,ascii "a"⟩] := by
  have absent : 58 ∉ pending ++ [13,10] := by simpa using free
  have split : pending ++ 13 :: 10 :: ascii ": x" = (pending ++ [13,10]) ++ ascii ": x" := by simp
  have found : search [58] (pending ++ 13 :: 10 :: ascii ": x") = some (pending.length+2) := by
    rw [split,search_skip (a := 58) rfl absent,List.length_append,show search [58] (ascii ": x") = some 0 by decide]
    simp
  have drops : (pending ++ 13 :: 10 :: ascii ": x").drop (pending.length+2+1) = ascii " x" := by
    rw [split,← List.drop_drop,List.drop_left' (by simp)]
    rfl
  have first : Group (pending ++ 13 :: 10 :: ascii ": x") := by
    refine ⟨⟨_,found,by rw [drops]; decide⟩,fun behind => ?_⟩
    rw [List.append_assoc]
    exact started _
  have second : Group (ascii "Host: a") := group_of_line (by decide +kernel) (by decide) (by decide)
  have value : (pending ++ 13 :: 10 :: ascii ": x").drop (pending.length+2+1+1) = ascii "x" := by
    rw [← List.drop_drop,drops]
    rfl
  have name : (pending ++ 13 :: 10 :: ascii ": x").take (pending.length+2) = pending ++ [13,10] := by
    rw [split]
    exact List.take_left' (by simp)
  have is_first : lineOf (pending ++ 13 :: 10 :: ascii ": x") = some ⟨pending ++ [13,10],1,ascii "x"⟩ := by
    have spaces : leadingSpaces (ascii " x") = 1 := by decide
    rw [lineOf,found]
    simp only [drops,spaces,value,name]
    rw [if_neg (by omega),if_neg (by decide)]
  have is_second : lineOf (ascii "Host: a") = some ⟨ascii "Host",1,ascii "a"⟩ := by decide
  have lines : pending ++ 13 :: 10 :: hostBehind =
      unlines 13 10 [pending ++ 13 :: 10 :: ascii ": x",ascii "Host: a"] ++ [13,10] := by
    simp only [unlines_cons,unlines_nil,List.append_assoc,List.cons_append]
    rfl
  rw [lines,readLines_groups (by simp [first,second]),readLines_blank]
  simp only [readAll,List.foldr_cons,List.foldr_nil,is_first,is_second,Option.bind_some,Option.map_some]

/-- Behind a section that can be read there is a text with which it is. -/
theorem reads_of_readable (is : Sectioned 13 10 text first ls body) (noNul : 0 ∉ body) (readable : Readable ls) :
    ∃ body', 0 ∉ body' ∧ ∃ headers lines value,
      Reads (first ++ 13 :: 10 :: (unlines 13 10 ls ++ 13 :: 10 :: body')) headers lines value := by
  have section_is : ∀ body', Sectioned 13 10 (first ++ 13 :: 10 :: (unlines 13 10 ls ++ 13 :: 10 :: body')) first ls
      body' := fun body' => ⟨rfl,is.first,is.clean,is.filled⟩
  obtain ⟨front,heads⟩ := lines_of_headers readable.headers
  obtain ⟨free,started⟩ := joined_pending is.clean is.filled
  by_cases empty : (joined ls).2 = []
  · have all : readAll (joined ls).1 (readLines ((joined ls).2 ++ 13 :: 10 :: body)) = some front := by
      rw [empty,List.nil_append,readLines_blank]
      exact readAll_eq_some.mpr ⟨front,[],heads,rfl,(List.append_nil _).symm⟩
    obtain ⟨g,member,line,is_line,named⟩ := readable.host empty
    have hosted : hostOf front ≠ none := by
      intro none
      have inside := List.mem_map_of_mem (f := lineOf) member
      rw [heads,is_line] at inside
      obtain ⟨other,member',same⟩ := List.mem_map.mp inside
      cases same
      exact hostOf_eq_none.mp none line member' named
    obtain ⟨value,found⟩ := Option.ne_none_iff_exists'.mp hosted
    exact ⟨body,noNul,_,front,value,by rw [headerSection_of_sectioned (section_is body),all]; rfl,found⟩
  · have behind := readLines_hostBehind free (started empty) (readable.short empty)
    have all := readAll_eq_some.mpr ⟨front,_,heads,behind,rfl⟩
    refine ⟨hostBehind,by decide,_,_,ascii "a",by rw [headerSection_of_sectioned (section_is _),all]; rfl,?_⟩
    rw [hostOf_append]
    rfl

/-- What is read is behind a first line, in a section. -/
theorem sectioned_of_reads {headers : Nat} {value : List Byte} (reads : Reads text headers lines value) :
    ∃ first ls body, sectionOf 13 10 text = some (first,ls,body) := by
  have nonempty : lines ≠ [] := by
    rintro rfl
    cases reads.host
  have blank := blankLine (scanLines_of_headerSection reads.read) nonempty
  obtain ⟨line_end,found,onward⟩ := Option.bind_eq_some_iff.mp reads.read
  obtain ⟨_,_,same⟩ := Option.bind_eq_some_iff.mp onward
  cases same
  rw [← List.drop_drop] at blank
  obtain ⟨e,blank_found⟩ := search_of_inside (blank.trans (List.drop_suffix 2 _).isInfix)
  rw [crlf_eq] at found blank_found
  exact ⟨_,_,_,Option.bind_eq_some_iff.mpr ⟨line_end,found,Option.map_eq_some_iff.mpr ⟨e,blank_found,rfl⟩⟩⟩

/-! ### The grammar -/

/-- The two texts differ behind the empty line only. -/
def SameSection (text text' : List Byte) : Prop :=
  ∃ first ls body body', sectionOf 13 10 text = some (first,ls,body) ∧ sectionOf 13 10 text' = some (first,ls,body')

/-- `parse_headers` takes the texts of the grammar and no others, it returns the last
    host of the section, and what is behind the empty line does not matter. -/
structure Faithful (text rest host : List Byte) : Prop where
  accepts : ¬ Refuses (text ++ 0 :: rest) host ↔ ∃ value, Grammar text value
  value : ∀ host' after, parseHeaders (text ++ 0 :: rest) host = some (.ok host',after) →
    Grammar text (cstring host' 0)
  behind : ∀ text' rest', 0 ∉ text' → SameSection text text' →
    (Refuses (text' ++ 0 :: rest') host ↔ Refuses (text ++ 0 :: rest) host) ∧
    ∀ host' host'' after after', parseHeaders (text ++ 0 :: rest) host = some (.ok host',after) →
      parseHeaders (text' ++ 0 :: rest') host = some (.ok host'',after') → cstring host'' 0 = cstring host' 0

theorem grammar_unique {value value' : List Byte} (one : Grammar text value) (two : Grammar text value') :
    value = value' := by
  obtain ⟨first,ls,body,lines,is,same,hosted⟩ := one
  obtain ⟨first',ls',body',lines',is',same',hosted'⟩ := two
  cases is.symm.trans is'
  have equal := List.map_injective_iff.mpr (fun _ _ => Option.some.inj) (same.symm.trans same')
  subst equal
  exact Option.some.inj (hosted.symm.trans hosted')

theorem colons_of_grammar {lines : List HeaderLine} (same : ls.map lineOf = lines.map some) : ∀ l ∈ ls, 58 ∈ l := by
  intro l member
  by_contra none
  have missing : lineOf l = .none := by
    rw [lineOf]
    cases found : search [58] l with
    | none => rfl
    | some k => exact absurd (List.mem_of_getElem? (search_singleton.mp found).1) none
  have inside := List.mem_map_of_mem (f := lineOf) member
  rw [same,missing] at inside
  obtain ⟨_,_,other⟩ := List.mem_map.mp inside
  cases other

/-- When every line has a colon, the loop reads what the grammar says. -/
theorem reads_iff_grammar (is : Sectioned 13 10 text first ls body) (colons : ∀ l ∈ ls, 58 ∈ l) {value : List Byte} :
    (∃ headers lines, Reads text headers lines value) ↔ Grammar text value := by
  have read := headerSection_of_sectioned is
  rw [joined_of_colons colons,List.nil_append,readLines_blank] at read
  constructor
  · rintro ⟨headers,lines,reads⟩
    obtain ⟨lines',all,same⟩ := Option.map_eq_some_iff.mp (read.symm.trans reads.read)
    cases same
    obtain ⟨front,back,heads,none,rfl⟩ := readAll_eq_some.mp all
    cases none
    exact ⟨first,ls,body,front,sectioned_iff.mpr is,heads,by simpa using reads.host⟩
  · rintro ⟨first',ls',body',lines,is',heads,hosted⟩
    obtain ⟨rfl,rfl,rfl⟩ := sectioned_unique (by decide) is (sectioned_iff.mp is')
    have all : readAll ls (some []) = some lines := readAll_eq_some.mpr ⟨lines,[],heads,rfl,(List.append_nil _).symm⟩
    exact ⟨_,lines,by rw [read,all]; rfl,hosted⟩

theorem readable_of_grammar {value : List Byte} (is : Sectioned 13 10 text first ls body)
    (grammar : Grammar text value) :
    (∀ l ∈ ls, 58 ∈ l) ∧ Readable ls := by
  obtain ⟨first',ls',body',lines,is',heads,hosted⟩ := grammar
  obtain ⟨rfl,rfl,rfl⟩ := sectioned_unique (by decide) is (sectioned_iff.mp is')
  have colons := colons_of_grammar heads
  obtain ⟨headers,lines',reads⟩ := (reads_iff_grammar is colons).mpr ⟨first,ls,body,lines,is',heads,hosted⟩
  exact ⟨colons,readable_of_reads is reads⟩

theorem reads_of_ok {rest host host' after : List Byte} (noNul : 0 ∉ text) (size : host.length = hValSize)
    (parsed : parseHeaders (text ++ 0 :: rest) host = some (.ok host',after)) :
    ∃ headers lines, Reads text headers lines (cstring host' 0) := by
  rcases parseHeaders_reads noNul rest size with ⟨⟨_,_,refused⟩,_⟩ | ⟨headers,lines,value,host'',reads,_,_,rfl,parsed'⟩
  · cases refused.symm.trans parsed
  · rw [parsed] at parsed'
    obtain ⟨_,_,same⟩ := Option.map_eq_some_iff.mp parsed'.symm
    cases same
    exact ⟨headers,lines,reads⟩

theorem grammar_same (same : SameSection text text') {value : List Byte} : Grammar text' value ↔ Grammar text value :=
    by
  obtain ⟨first,ls,body,body',is,is'⟩ := same
  constructor
  · rintro ⟨_,_,_,lines,is'',heads,hosted⟩
    cases is'.symm.trans is''
    exact ⟨first,ls,body,lines,is,heads,hosted⟩
  · rintro ⟨_,_,_,lines,is'',heads,hosted⟩
    cases is.symm.trans is''
    exact ⟨first,ls,body',lines,is',heads,hosted⟩

/-- Every line of the section has a colon, or no text with this section is read. -/
def Separate (text : List Byte) : Prop :=
  ∀ first ls body, sectionOf 13 10 text = some (first,ls,body) → (∀ l ∈ ls, 58 ∈ l) ∨ ¬ Readable ls

theorem separate_same (same : SameSection text text') (separate : Separate text) : Separate text' := by
  obtain ⟨first,ls,body,body',is,is'⟩ := same
  intro _ _ _ is''
  cases is'.symm.trans is''
  exact separate first ls body is

/-- Either way the loop reads the text exactly when the grammar has it. -/
theorem reads_iff_of_separate (separate : Separate text) {value : List Byte} :
    (∃ headers lines, Reads text headers lines value) ↔ Grammar text value := by
  cases is : sectionOf 13 10 text with
  | none =>
    constructor
    · rintro ⟨headers,lines,reads⟩
      obtain ⟨_,_,_,some⟩ := sectioned_of_reads reads
      cases is.symm.trans some
    · rintro ⟨_,_,_,_,some,_⟩
      cases is.symm.trans some
  | some found =>
    obtain ⟨first,ls,body⟩ := found
    have sectioned := sectioned_iff.mp is
    rcases separate first ls body is with colons | unread
    · exact reads_iff_grammar sectioned colons
    · refine iff_of_false ?_ fun grammar => unread (readable_of_grammar sectioned grammar).2
      rintro ⟨headers,lines,reads⟩
      exact unread (readable_of_reads sectioned reads)

theorem taken_iff_of_separate {rest host : List Byte} (noNul : 0 ∉ text) (size : host.length = hValSize)
    (separate : Separate text) : ¬ Refuses (text ++ 0 :: rest) host ↔ ∃ value, Grammar text value := by
  rw [refuses_iff noNul rest size]
  constructor
  · rintro ⟨headers,lines,value,reads⟩
    exact ⟨value,(reads_iff_of_separate separate).mp ⟨headers,lines,reads⟩⟩
  · rintro ⟨value,grammar⟩
    obtain ⟨headers,lines,reads⟩ := (reads_iff_of_separate separate).mpr grammar
    exact ⟨headers,lines,value,reads⟩

theorem grammar_of_ok {rest host host' after : List Byte} (noNul : 0 ∉ text) (size : host.length = hValSize)
    (separate : Separate text) (parsed : parseHeaders (text ++ 0 :: rest) host = some (.ok host',after)) :
    Grammar text (cstring host' 0) := (reads_iff_of_separate separate).mp (reads_of_ok noNul size parsed)

/-- `parse_headers` keeps to the grammar of the section exactly when every line of
    the section has a colon, or when no text with this section is read at all. -/
theorem faithful_iff {rest host : List Byte} (noNul : 0 ∉ text) (size : host.length = hValSize) :
    Faithful text rest host ↔ Separate text := by
  constructor
  · rintro ⟨accepts,_,behind⟩ first ls body is
    by_contra neither
    push Not at neither
    obtain ⟨⟨l,member,none⟩,readable⟩ := neither
    have sectioned := sectioned_iff.mp is
    have clean := noNul
    rw [sectioned.split] at clean
    simp only [List.mem_append,List.mem_cons,not_or] at clean
    obtain ⟨clean_first,_,_,clean_lines,_,_,clean_body⟩ := clean
    obtain ⟨body',clean',reads⟩ := reads_of_readable sectioned clean_body readable
    have section_is : Sectioned 13 10 (first ++ 13 :: 10 :: (unlines 13 10 ls ++ 13 :: 10 :: body')) first ls body' :=
      ⟨rfl,sectioned.first,sectioned.clean,sectioned.filled⟩
    have noNul' : 0 ∉ first ++ 13 :: 10 :: (unlines 13 10 ls ++ 13 :: 10 :: body') := by
      simp [clean_first,clean_lines,clean']
    have same : SameSection text (first ++ 13 :: 10 :: (unlines 13 10 ls ++ 13 :: 10 :: body')) :=
      ⟨first,ls,body,body',is,sectioned_iff.mpr section_is⟩
    -- The loop takes this text, so that it has to take the first one too.
    have taken := (refuses_iff noNul' rest size).mpr reads
    obtain ⟨value,grammar⟩ := accepts.mp fun refuses => taken ((behind _ rest noNul' same).1.mpr refuses)
    exact none ((readable_of_grammar sectioned grammar).1 l member)
  · intro separate
    constructor
    case accepts => exact taken_iff_of_separate noNul size separate
    case value => exact fun host' after parsed => grammar_of_ok noNul size separate parsed
    case behind =>
      intro text' rest' noNul' same
      have separate' := separate_same same separate
      constructor
      · rw [← not_iff_not,taken_iff_of_separate noNul' size separate',taken_iff_of_separate noNul size separate]
        exact exists_congr fun value => grammar_same same
      · intro host' host'' after after' parsed parsed'
        have one := grammar_of_ok noNul size separate parsed
        have two := grammar_of_ok noNul' size separate' parsed'
        exact grammar_unique ((grammar_same same).mp two) one

/-- A line without a colon is read as a part of the name of the next header. -/
def joinedLine : List Byte := ascii "GET / HTTP/1.0\r\nHost: a\r\njunk\r\nX: y\r\n\r\n"

/-- The last line has no colon, and the loop goes on behind the empty line. -/
def openSection : List Byte := ascii "GET / HTTP/1.0\r\nHost: a\r\njunk\r\n\r\n: x\r\nHost: b\r\n\r\n"

theorem not_grammar {value : List Byte} (is : sectionOf 13 10 text = some (first,ls,body)) (member : l ∈ ls)
    (none : 58 ∉ l) : ¬ Grammar text value := fun grammar =>
  none ((readable_of_grammar (sectioned_iff.mp is) grammar).1 l member)

theorem unfaithful :
    (¬ Refuses (joinedLine ++ 0 :: array 20) (array hValSize) ∧ (∀ value, ¬ Grammar joinedLine value) ∧
      ¬ Faithful joinedLine (array 20) (array hValSize)) ∧
    (∃ host after, parseHeaders (openSection ++ 0 :: array 20) (array hValSize) = some (.ok host,after) ∧
      cstring host 0 = ascii "b") ∧ (∀ value, ¬ Grammar openSection value) ∧
      ¬ Faithful openSection (array 20) (array hValSize) := by
  have size := array_length hValSize
  have joined_reads : Reads joinedLine 16 [⟨ascii "Host",1,ascii "a"⟩,⟨ascii "junk\r\nX",1,ascii "y"⟩] (ascii "a") :=
    ⟨by decide,by decide⟩
  have open_reads : Reads openSection 16 [⟨ascii "Host",1,ascii "a"⟩,⟨ascii "junk\r\n\r\n",1,ascii "x"⟩,
    ⟨ascii "Host",1,ascii "b"⟩] (ascii "b") := ⟨by decide,by decide⟩
  have joined_section : sectionOf 13 10 joinedLine =
      some (ascii "GET / HTTP/1.0",[ascii "Host: a",ascii "junk",ascii "X: y"],[]) := by decide +kernel
  have open_section : sectionOf 13 10 openSection = some (ascii "GET / HTTP/1.0",[ascii "Host: a",ascii "junk"],
      ascii ": x\r\nHost: b\r\n\r\n") := by decide +kernel
  have joined_none : ∀ value, ¬ Grammar joinedLine value := fun value =>
    not_grammar joined_section (by decide : ascii "junk" ∈ _) (by decide)
  have open_none : ∀ value, ¬ Grammar openSection value := fun value =>
    not_grammar open_section (by decide : ascii "junk" ∈ _) (by decide)
  have joined_taken := (refuses_iff (by decide) (array 20) size).mpr ⟨_,_,_,joined_reads⟩
  refine ⟨⟨joined_taken,joined_none,fun faithful => ?_⟩,?_,open_none,fun faithful => ?_⟩
  · obtain ⟨value,grammar⟩ := faithful.accepts.mp joined_taken
    exact joined_none value grammar
  · rcases parseHeaders_of_reads (by decide) (array 20) size open_reads with ⟨_,host',rest',_,string,
      parsed⟩ | ⟨_,full,_⟩
    · exact ⟨host',_,parsed,string⟩
    · exact absurd full (by decide)
  · obtain ⟨value,grammar⟩ := faithful.accepts.mp ((refuses_iff (by decide) (array 20) size).mpr ⟨_,_,_,open_reads⟩)
    exact open_none value grammar

theorem faithful_iff_joinedLine :
    Faithful joinedLine (array 20) (array hValSize) ↔ Separate joinedLine :=
  faithful_iff (by decide) (array_length _)

end Os5Sem.HeaderGrammar
