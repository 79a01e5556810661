import Os5Sem.HeaderGrammar

/-!
What `parse_headers` does to the `Connection` headers of a section. The value of
the last one that is read is overwritten in place, which goes well when it is as
long as `close` (`replaced_iff`). A header that is put in comes with a line end too
many, and takes one from the line before it (`never_appended`).
-/
namespace Os5Sem.ConnectionHeader
open Os5Sem.Occurrences Os5Sem.Lines Os5Sem.CMemory Os5Sem.Handler Os5Sem.RequestText Os5Sem.RequestLength
open Os5Sem.Forwarding Os5Sem.HeaderReading Os5Sem.HeaderGrammar

/-- The line with the value `close`, when it is a `Connection` header. -/
def closeLine (l : List Byte) : List Byte :=
  match lineOf l with
  | some line => if line.Named "connection" then l.take line.valueStart ++ ascii "close" else l
  | none => l

/-- The line is no `Connection` header, or one with the value `close`. -/
def Closed (l : List Byte) : Prop := ∀ line, lineOf l = some line → line.Named "connection" → line.value = ascii "close"

/-- The text with the values of all `Connection` headers closed. -/
def replaced (first : List Byte) (ls : List (List Byte)) (body : List Byte) : List Byte :=
  first ++ 13 :: 10 :: (unlines 13 10 (ls.map closeLine) ++ 13 :: 10 :: body)

variable {text first body l : List Byte} {ls groups : List (List Byte)} {lines : List HeaderLine} {line : HeaderLine}
  {start h : Nat}

/-- The parts of a line that is a header. -/
structure Splits (l : List Byte) (line : HeaderLine) : Prop where
  colon : search [58] l = some line.name.length
  name : line.name = l.take line.name.length
  value : l.drop line.valueStart = line.value
  length : line.valueStart + line.value.length = l.length

theorem splits_of_lineOf (is : lineOf l = some line) : Splits l line := by
  unfold lineOf at is
  split at is
  · cases is
  rename_i colon found
  have inside := search_bound found
  rw [List.length_singleton] at inside
  have nameLength : (l.take colon).length = colon := by rw [List.length_take]; omega
  split at is
  · cases is
  simp only at is
  split at is
  · cases is
  rename_i sizes
  cases is
  rw [not_or,List.length_drop] at sizes
  constructor <;> simp only [HeaderLine.valueStart,nameLength]
  case colon => exact found
  case length =>
    rw [List.length_drop]
    omega

theorem Splits.take_valueStart (splits : Splits l line) : (l.take line.valueStart).length = line.valueStart := by
  have := splits.length
  rw [List.length_take]
  omega

theorem Splits.split (splits : Splits l line) : l = l.take line.valueStart ++ line.value := by
  rw [← splits.value,List.take_append_drop]

theorem closeLine_of_named (is : lineOf l = some line) (named : line.Named "connection") :
    closeLine l = l.take line.valueStart ++ ascii "close" := by
  rw [closeLine,is]
  exact if_pos named

theorem closeLine_eq_self : closeLine l = l ↔ Closed l := by
  unfold closeLine Closed
  cases is : lineOf l with
  | none => simp
  | some line =>
    have splits := splits_of_lineOf is
    simp only [Option.some.injEq,forall_eq']
    by_cases named : line.Named "connection"
    · rw [if_pos named]
      conv_lhs => rhs; rw [splits.split]
      rw [List.append_right_inj,eq_comm,forall_prop_of_true named]
    · rw [if_neg named]
      exact iff_of_true rfl fun is => absurd is named

theorem closeLine_clean (clean : Clean 13 10 l) : Clean 13 10 (closeLine l) := by
  unfold closeLine
  split
  · split
    · refine clean_append (fun inside => clean (inside.trans (List.take_prefix _ l).isInfix)) (by decide +kernel) ?_
      rintro _ ⟨⟩
      decide
    · exact clean
  · exact clean

theorem closeLine_filled (filled : l ≠ []) : closeLine l ≠ [] := by
  unfold closeLine
  split
  · split
    · exact List.append_ne_nil_of_right_ne_nil _ (by decide)
    · exact filled
  · exact filled

/-- A section with its `Connection` headers closed is a section again. -/
theorem sectioned_closed (is : Sectioned 13 10 text first ls body) :
    Sectioned 13 10 (replaced first ls body) first (ls.map closeLine) body := by
  refine ⟨rfl,is.first,fun m member => ?_,fun m member => ?_⟩
  · obtain ⟨l,inside,rfl⟩ := List.mem_map.mp member
    exact closeLine_clean (is.clean l inside)
  · obtain ⟨l,inside,rfl⟩ := List.mem_map.mp member
    exact closeLine_filled (is.filled l inside)

/-! ### Where the last `Connection` header is -/

theorem lastConnection_append (front back : List HeaderLine) :
    lastConnection start (front ++ back) =
      (lastConnection (start + (front.map HeaderLine.length).sum) back).or (lastConnection start front) := by
  induction front generalizing start with
  | nil => simp [lastConnection]
  | cons line front ih =>
    rw [List.cons_append,lastConnection,lastConnection,ih,Option.or_assoc,List.map_cons,List.sum_cons,Nat.add_assoc]

theorem lengths_of_groups (heads : groups.map lineOf = lines.map some) :
    (lines.map HeaderLine.length).sum = (unlines 13 10 groups).length := by
  induction groups generalizing lines with
  | nil => rw [List.map_eq_nil_iff.mp heads.symm]; rfl
  | cons g groups ih =>
    obtain ⟨line,lines,rfl⟩ := List.exists_cons_of_ne_nil (l := lines) (by rintro rfl; cases heads)
    rw [List.map_cons,List.map_cons,List.cons.injEq] at heads
    rw [List.map_cons,List.sum_cons,ih heads.2,lineOf_length heads.1,unlines_cons,List.length_append,List.length_cons,
      List.length_cons]
    omega

theorem last_in_groups (heads : groups.map lineOf = lines.map some)
    (last : lastConnection start lines = some (h,line)) :
    ∃ front g back, groups = front ++ g :: back ∧ lineOf g = some line ∧
      h = start + (unlines 13 10 front).length := by
  induction groups generalizing lines start with
  | nil =>
    rw [List.map_eq_nil_iff.mp heads.symm] at last
    cases last
  | cons g groups ih =>
    obtain ⟨line',lines,rfl⟩ := List.exists_cons_of_ne_nil (l := lines) (by rintro rfl; cases heads)
    rw [List.map_cons,List.map_cons,List.cons.injEq] at heads
    rw [lastConnection,Option.or_eq_some_iff] at last
    rcases last with later | ⟨_,here⟩
    · obtain ⟨front,g',back,rfl,is,rfl⟩ := ih heads.2 later
      refine ⟨g :: front,g',back,rfl,is,?_⟩
      rw [lineOf_length heads.1,unlines_cons,List.length_append,List.length_cons,List.length_cons]
      omega
    · split at here
      · cases here
        exact ⟨[],g,groups,rfl,heads.1,rfl⟩
      · cases here

/-- Lines that are read together have a line end in the name. -/
theorem line_of_joined {front back : List (List Byte)} {g : List Byte} {k : Nat}
    (is : (joined ls).1 = front ++ g :: back) (found : search [58] g = some k) (noReturn : 13 ∉ g.take k) :
    ∃ before behind, ls = before ++ g :: behind ∧ unlines 13 10 before = unlines 13 10 front := by
  induction ls generalizing front with
  | nil => simp [joined] at is
  | cons l ls ih =>
    rw [joined] at is
    split at is
    · cases front with
      | nil =>
        obtain ⟨rfl,_⟩ := List.cons.inj is
        exact ⟨[],ls,rfl,rfl⟩
      | cons g' front =>
        obtain ⟨rfl,same⟩ := List.cons.inj is
        obtain ⟨before,behind,rfl,lengths⟩ := ih same
        exact ⟨l :: before,behind,rfl,by rw [unlines_cons,unlines_cons,lengths]⟩
    · rename_i none
      split at is
      · rename_i g₀ groups pending parts
        cases front with
        | nil =>
          obtain ⟨rfl,_⟩ := List.cons.inj is
          have absent : 58 ∉ l ++ [13,10] := by simpa using none
          have split : l ++ 13 :: 10 :: g₀ = (l ++ [13,10]) ++ g₀ := by simp
          rw [split] at found noReturn
          have inside := prefix_of_search rfl absent found
          exact absurd (inside.subset (by simp)) noReturn
        | cons g' front =>
          obtain ⟨rfl,same⟩ := List.cons.inj is
          have shorter : (joined ls).1 = (g₀ :: front) ++ g :: back := by rw [parts]; exact congrArg (g₀ :: ·) same
          obtain ⟨before,behind,rfl,lengths⟩ := ih shorter
          refine ⟨l :: before,behind,rfl,?_⟩
          rw [unlines_cons,unlines_cons,lengths,unlines_cons]
          simp
      · cases front <;> cases is

theorem lastConnection_mem (last : lastConnection start lines = some (h,line)) :
    start ≤ h ∧ line ∈ lines ∧ line.Named "connection" := by
  induction lines generalizing start with
  | nil => cases last
  | cons line' lines ih =>
    rw [lastConnection,Option.or_eq_some_iff] at last
    rcases last with later | ⟨_,here⟩
    · obtain ⟨behind,member,named⟩ := ih later
      exact ⟨Nat.le_of_add_right_le behind,List.mem_cons_of_mem line' member,named⟩
    · split at here
      · rename_i named
        cases here
        exact ⟨Nat.le_refl _,List.mem_cons_self,named⟩
      · cases here

/-- The header that is overwritten is a line of the section, or lies behind the empty
    line. -/
theorem lastConnection_section {headers : Nat} (noNul : 0 ∉ text) (is : Sectioned 13 10 text first ls body)
    (read : headerSection text = some (headers,lines)) (last : lastConnection headers lines = some (h,line)) :
    headers = first.length + 2 ∧
    ((∃ before l behind, ls = before ++ l :: behind ∧ lineOf l = some line ∧
      h = first.length + 2 + (unlines 13 10 before).length) ∨
    first.length + (unlines 13 10 ls).length + 4 ≤ h) := by
  have names := scanLines_noNul (fun member => noNul (List.mem_of_mem_drop member)) (scanLines_of_headerSection read)
  have noReturn : ∀ line ∈ lines, line.Named "connection" → 13 ∉ line.name := fun line member =>
    noReturn_of_named (names line member)
  rw [headerSection_of_sectioned is] at read
  obtain ⟨_,read,same⟩ := Option.map_eq_some_iff.mp read
  cases same
  refine ⟨rfl,?_⟩
  obtain ⟨front,back,heads,rest_read,rfl⟩ := readAll_eq_some.mp read
  obtain ⟨free,started⟩ := joined_pending is.clean is.filled
  rw [lastConnection_append,Option.or_eq_some_iff,lengths_of_groups heads] at last
  rcases last with later | ⟨_,here⟩
  · by_cases empty : (joined ls).2 = []
    · rw [empty,List.nil_append,readLines_blank] at rest_read
      cases rest_read
      cases later
    · rw [readLines_next (started empty _)] at rest_read
      obtain ⟨line₀,is_line,onward⟩ := Option.bind_eq_some_iff.mp rest_read
      obtain ⟨back,_,rfl⟩ := Option.map_eq_some_iff.mp onward
      -- This header has a line end in its name.
      have inside := pending_in_name free is_line
      have long := inside.length_le
      rw [List.length_append] at long
      have split := congrArg List.length (joined_split ls)
      rw [List.length_append] at split
      rw [lastConnection,Option.or_eq_some_iff] at later
      rcases later with later | ⟨_,here⟩
      · have behind := (lastConnection_mem later).1
        simp only [HeaderLine.length,HeaderLine.valueStart,List.length_cons,List.length_nil] at behind long
        exact .inr (by omega)
      · split at here
        · rename_i named
          cases here
          exact absurd (inside.subset (by simp)) (noReturn _ (by simp) named)
        · cases here
  · obtain ⟨front',g,back',groups,is_line,rfl⟩ := last_in_groups heads here
    have splits := splits_of_lineOf is_line
    obtain ⟨_,inside,named⟩ := lastConnection_mem here
    have member := List.mem_append_left back inside
    have clean : 13 ∉ g.take line.name.length := by
      rw [← splits.name]
      exact noReturn _ member named
    obtain ⟨before,behind,rfl,lengths⟩ := line_of_joined groups splits.colon clean
    exact .inl ⟨before,g,behind,rfl,is_line,by rw [lengths]⟩

/-! ### The value that is overwritten -/

theorem closed_eq (text : List Byte) (p length : Nat) :
    closed text p length = text.take p ++ (ascii "close" ++ text.drop (p + max length 5)) := by
  have five : (ascii "close").length = 5 := by decide
  rw [closed]
  split
  · rw [Nat.max_eq_left (by omega),List.append_assoc]
  · rw [Nat.max_eq_right (by omega),overwrite,five,List.append_assoc]

theorem closed_append (front back : List Byte) (q length : Nat) :
    closed (front ++ back) (front.length+q) length = front ++ closed back q length := by
  rw [closed_eq,closed_eq,Nat.add_assoc,List.take_length_add_append,List.drop_length_add_append,List.append_assoc]

/-- A value up to a line end stays only when it is `close`. -/
theorem closed_eq_self {q length : Nat} (ending : search crlf (text.drop q) = some length) :
    closed text q length = text ↔ (text.drop q).take length = ascii "close" := by
  have five : (ascii "close").length = 5 := by decide
  have inside := search_bound ending
  rw [List.length_drop,crlf_eq] at inside
  simp only [List.length_cons,List.length_nil] at inside
  constructor
  · intro same
    have lengths := congrArg List.length same
    rw [closed_eq] at same lengths
    simp only [List.length_append,List.length_take,List.length_drop,five] at lengths
    have front : ascii "close" <+: text.drop q := by
      conv_rhs => rw [← same]
      rw [List.drop_left' (by rw [List.length_take]; omega)]
      exact List.prefix_append ..
    have fits : length = 5 := by
      by_contra other
      -- A shorter value has the line end among its five bytes.
      have short : length < 5 := by omega
      obtain ⟨behind,is⟩ := (search_eq_some.mp ending).2.1
      have here : (text.drop q)[length]? = some 13 := by
        have first : ((text.drop q).drop length)[0]? = some 13 := by rw [← is]; rfl
        rwa [List.getElem?_drop,Nat.add_zero] at first
      obtain ⟨more,split⟩ := front
      rw [← split,List.getElem?_append_left (by omega)] at here
      exact absurd (List.mem_of_getElem? here) (by decide)
    rw [fits,← five]
    exact (List.prefix_iff_eq_take.mp front).symm
  · intro is
    have fits := congrArg List.length is
    rw [List.length_take,List.length_drop,five] at fits
    rw [closed,if_neg (by omega)]
    exact overwrite_same (is ▸ List.take_prefix ..)

theorem map_closeLine : ls.map closeLine = ls ↔ ∀ l ∈ ls, Closed l := by
  induction ls with
  | nil => simp
  | cons l ls ih => rw [List.map_cons,List.cons.injEq,ih,closeLine_eq_self,List.forall_mem_cons]

/-- An edit behind the section keeps the section. -/
theorem closed_behind (is : Sectioned 13 10 text first ls body)
    (behind : first.length + (unlines 13 10 ls).length + 4 ≤ h) (line : HeaderLine) :
    ∃ body', closed text (h+line.valueStart) line.value.length =
        first ++ 13 :: 10 :: (unlines 13 10 ls ++ 13 :: 10 :: body') ∧
      (StartsWith (text.drop h) line → (body' = body ↔ line.value = ascii "close")) := by
  let front := first ++ 13 :: 10 :: (unlines 13 10 ls ++ [13,10])
  have split : text = front ++ body := by rw [is.split]; simp [front]
  have length : front.length = first.length + (unlines 13 10 ls).length + 4 := by
    simp only [front,List.length_append,List.length_cons,List.length_nil]
    omega
  obtain ⟨q,rfl⟩ := Nat.exists_eq_add_of_le (length ▸ behind : front.length ≤ h)
  refine ⟨closed body (q+line.valueStart) line.value.length,?_,fun starts => ?_⟩
  · rw [split,Nat.add_assoc,closed_append]
    simp [front]
  · have drops : (text.drop (front.length+q)).drop line.valueStart = body.drop (q+line.valueStart) := by
      rw [split,List.drop_length_add_append,List.drop_drop]
    have ending := starts.ending
    have value := starts.value
    rw [slice] at value
    rw [drops] at ending value
    rw [closed_eq_self ending,← value]

/-- Behind the section nothing may change. -/
theorem closed_behind_iff (is : Sectioned 13 10 text first ls body) (starts : StartsWith (text.drop h) line)
    (behind : first.length + (unlines 13 10 ls).length + 4 ≤ h) :
    closed text (h+line.valueStart) line.value.length = replaced first ls body ↔
      line.value = ascii "close" ∧ ∀ l ∈ ls, Closed l := by
  obtain ⟨body',edited,kept⟩ := closed_behind is behind line
  have section_is : Sectioned 13 10 (first ++ 13 :: 10 :: (unlines 13 10 ls ++ 13 :: 10 :: body')) first ls body' :=
    ⟨rfl,is.first,is.clean,is.filled⟩
  rw [edited,← kept starts,← map_closeLine]
  constructor
  · intro same
    obtain ⟨_,lines,bodies⟩ := sectioned_unique (by decide) (same ▸ section_is) (sectioned_closed is)
    exact ⟨bodies,lines.symm⟩
  · rintro ⟨bodies,lines⟩
    rw [replaced,bodies,lines]

/-- In the section the one value that is overwritten has to be the last that needs
    it. -/
theorem closed_line_iff {before behind : List (List Byte)} (is : Sectioned 13 10 text first
    (before ++ l :: behind) body)
    (is_line : lineOf l = some line) (named : line.Named "connection") :
    closed text (first.length + 2 + (unlines 13 10 before).length + line.valueStart) line.value.length =
        replaced first (before ++ l :: behind) body ↔
      5 ≤ line.value.length ∧ ∀ m ∈ before ++ behind, Closed m := by
  have splits := splits_of_lineOf is_line
  have five : (ascii "close").length = 5 := by decide
  let front := first ++ 13 :: 10 :: (unlines 13 10 before ++ l.take line.valueStart)
  let back := 13 :: 10 :: (unlines 13 10 behind ++ 13 :: 10 :: body)
  have split : text = front ++ (line.value ++ back) := by
    rw [is.split,unlines_append,unlines_cons]
    conv_lhs => rw [splits.split]
    simp [front,back]
  have length : front.length = first.length + 2 + (unlines 13 10 before).length + line.valueStart := by
    simp only [front,List.length_append,List.length_cons,splits.take_valueStart]
    omega
  have edited : closed text front.length line.value.length =
      front ++ (ascii "close" ++ (line.value ++ back).drop (max line.value.length 5)) := by
    have := closed_append front (line.value ++ back) 0 line.value.length
    rw [Nat.add_zero] at this
    rw [split,this,closed_eq,List.take_zero,List.nil_append,Nat.zero_add]
  rw [← length,edited]
  by_cases long : 5 ≤ line.value.length
  · rw [Nat.max_eq_left long,List.drop_left,and_iff_right long]
    have lines : front ++ (ascii "close" ++ back) =
        first ++ 13 :: 10 :: (unlines 13 10 (before ++ closeLine l :: behind) ++ 13 :: 10 :: body) := by
      rw [unlines_append,unlines_cons,closeLine_of_named is_line named]
      simp [front,back]
    have clean := is.clean
    have filled := is.filled
    simp only [List.forall_mem_append,List.forall_mem_cons] at clean filled
    have section_is : Sectioned 13 10
        (first ++ 13 :: 10 :: (unlines 13 10 (before ++ closeLine l :: behind) ++ 13 :: 10 :: body)) first
        (before ++ closeLine l :: behind) body := by
      refine ⟨rfl,is.first,?_,?_⟩ <;> simp only [List.forall_mem_append,List.forall_mem_cons]
      · exact ⟨clean.1,closeLine_clean clean.2.1,clean.2.2⟩
      · exact ⟨filled.1,closeLine_filled filled.2.1,filled.2.2⟩
    rw [lines,List.forall_mem_append,← map_closeLine,← map_closeLine]
    constructor
    · intro same
      obtain ⟨_,same,_⟩ := sectioned_unique (by decide) (same ▸ section_is) (sectioned_closed is)
      rw [List.map_append,List.map_cons] at same
      obtain ⟨fronts,backs⟩ := List.append_inj same (by rw [List.length_map])
      exact ⟨fronts.symm,(List.cons.inj backs).2.symm⟩
    · rintro ⟨fronts,backs⟩
      rw [replaced,List.map_append,List.map_cons,fronts,backs]
  · -- The line end behind a shorter value is written over.
    refine iff_of_false (fun same => ?_) fun both => long both.1
    have fewer := ends_overwritten (by decide : (13 : Byte) ≠ 10) (by decide : 13 ∉ ascii "close") (by decide)
      (by omega : line.value.length < (ascii "close").length) front (unlines 13 10 behind ++ 13 :: 10 :: body)
    have kept := (sectioned_closed is).ends_eq (by decide)
    rw [Nat.max_eq_right (by omega)] at same
    rw [← split,is.ends_eq (by decide),five,same,kept,List.length_map] at fewer
    omega

/-! ### The header that is put in -/

/-- A line end too many is left behind the header that is put in. -/
theorem inserted_section {first' body' : List Byte} {ls' : List (List Byte)} {e : Nat}
    (is : Sectioned 13 10 text first ls body) (found : search (ascii "\r\n\r\n") text = some e)
    (edited : Sectioned 13 10 (text.take e ++ connectionLine ++ text.drop e) first' ls' body') :
    body.length + 2 ≤ body'.length := by
  have blank : ascii "\r\n\r\n" = [13,10,13,10] := by decide
  have line : connectionLine = ascii "\nConnection: close" ++ [13,10] := by decide
  have twenty : connectionLine.length = 20 := by decide
  rw [blank] at found
  have inside := search_bound found
  simp only [List.length_cons,List.length_nil] at inside
  obtain ⟨_,⟨behind,here⟩,_⟩ := search_eq_some.mp found
  have place := is.search_eq (by decide)
  rw [found,Option.some.injEq] at place
  obtain ⟨_,_,earliest⟩ := search_eq_some.mp (edited.search_eq (by decide))
  -- The header ends with a line end, and the end of the section follows.
  have occurs : [13,10,13,10] <+: (text.take e ++ connectionLine ++ text.drop e).drop (e+18) := by
    have front : (text.take e ++ ascii "\nConnection: close").length = e + 18 := by
      rw [List.length_append,List.length_take,show (ascii "\nConnection: close").length = 18 by decide]
      omega
    have split : text.take e ++ connectionLine ++ text.drop e =
        (text.take e ++ ascii "\nConnection: close") ++ ([13,10] ++ text.drop e) := by
      rw [line]
      simp only [List.append_assoc]
    rw [split,List.drop_left' front,← here]
    exact ⟨13 :: 10 :: behind,rfl⟩
  have last : first'.length + (unlines 13 10 ls').length ≤ e + 18 := by
    by_contra later
    exact earliest (e+18) (by omega) occurs
  have before := is.length_eq
  have after := edited.length_eq
  simp only [List.length_append,List.length_take,List.length_drop,twenty] at after
  omega

/-! ### The call -/

variable {rest host : List Byte}

/-- The call returns 0, and its only effect on the text is that the values of the
    `Connection` headers of the section are `close`. -/
def Replaced (text rest host first : List Byte) (ls : List (List Byte)) (body : List Byte) : Prop :=
  ∃ host' after, parseHeaders (text ++ 0 :: rest) host = some (.ok host',after) ∧
    cstring after 0 = replaced first ls body

/-- The header at `h` is a line of the section with a value of at least five bytes,
    and the other lines are closed; or it lies behind the section and everything is
    closed. -/
def ClosesOne (first : List Byte) (ls : List (List Byte)) (h : Nat) (line : HeaderLine) : Prop :=
  (∃ before l behind, ls = before ++ l :: behind ∧ h = first.length + 2 + (unlines 13 10 before).length ∧
    5 ≤ line.value.length ∧ ∀ m ∈ before ++ behind, Closed m) ∨
  first.length + (unlines 13 10 ls).length + 4 ≤ h ∧ line.value = ascii "close" ∧ ∀ m ∈ ls, Closed m

/-- At most the last `Connection` header that is read is left to close. -/
def OneToClose (text first : List Byte) (ls : List (List Byte)) : Prop :=
  ∃ headers lines h line, headerSection text = some (headers,lines) ∧
    lastConnection headers lines = some (h,line) ∧ ClosesOne first ls h line

/-- What a buffer that is taken holds behind the call, if there is room. -/
theorem string_of_reads {headers : Nat} {value : List Byte} (noNul : 0 ∉ text) (size : host.length = hValSize)
    (reads : Reads text headers lines value) :
    (∃ host' after, parseHeaders (text ++ 0 :: rest) host = some (.ok host',after) ∧
      cstring after 0 = reconnected text (lastConnection headers lines)) ∨
    lastConnection headers lines = none ∧ parseHeaders (text ++ 0 :: rest) host = none := by
  rcases parseHeaders_of_reads noNul rest size reads with ⟨_,host',rest',_,_,parsed⟩ | ⟨none,_,overflow⟩
  · refine .inl ⟨host',_,parsed,?_⟩
    rw [cstring_text (reconnected_noNul noNul _) (Nat.zero_le _),List.drop_zero]
  · exact .inr ⟨none,overflow⟩

theorem replaced_of_call {host' after : List Byte} {last : Option (Nat × HeaderLine)}
    (parsed : parseHeaders (text ++ 0 :: rest) host = some (.ok host',after))
    (string : cstring after 0 = reconnected text last) :
    Replaced text rest host first ls body ↔ reconnected text last = replaced first ls body := by
  rw [← string]
  constructor
  · rintro ⟨_,_,parsed',is⟩
    cases parsed.symm.trans parsed'
    exact is
  · intro is
    exact ⟨host',after,parsed,is⟩

/-- The lines of a section before one of them are told by where it starts. -/
theorem before_unique {before before' behind behind' : List (List Byte)} {l l' : List Byte}
    (same : before ++ l :: behind = before' ++ l' :: behind')
    (lengths : (unlines 13 10 before).length = (unlines 13 10 before').length) :
    before = before' ∧ l = l' ∧ behind = behind' := by
  have grows : ∀ {ms : List (List Byte)}, (unlines 13 10 ms).length = 0 → ms = [] := by
    rintro (_ | ⟨m,ms⟩) none
    · rfl
    · simp at none
  have fronts : before = before' := by
    rcases List.append_eq_append_iff.mp same with ⟨more,rfl,_⟩ | ⟨more,rfl,_⟩
    · rw [unlines_append,List.length_append] at lengths
      rw [@grows more (by omega),List.append_nil]
    · rw [unlines_append,List.length_append] at lengths
      rw [@grows more (by omega),List.append_nil]
  subst fronts
  exact ⟨rfl,List.cons.inj (List.append_cancel_left same)⟩

/-- The edit of the last `Connection` header closes all of them, and nothing else. -/
theorem closed_iff {headers : Nat} (noNul : 0 ∉ text) (is : Sectioned 13 10 text first ls body)
    (read : headerSection text = some (headers,lines)) (last : lastConnection headers lines = some (h,line)) :
    closed text (h+line.valueStart) line.value.length = replaced first ls body ↔ ClosesOne first ls h line := by
  obtain ⟨_,place⟩ := lastConnection_section noNul is read last
  rcases place with ⟨before,l,behind,rfl,is_line,rfl⟩ | beyond
  · rw [closed_line_iff is is_line (lastConnection_mem last).2.2]
    constructor
    · rintro ⟨long,closed⟩
      exact .inl ⟨before,l,behind,rfl,rfl,long,closed⟩
    · rintro (⟨before',l',behind',same,starts,long,closed⟩ | ⟨beyond,_⟩)
      · obtain ⟨rfl,rfl,rfl⟩ := before_unique same (by omega)
        exact ⟨long,closed⟩
      · rw [unlines_append,List.length_append] at beyond
        omega
  · rw [closed_behind_iff is (lastConnection_spec (scanLines_of_headerSection read) last).1 beyond]
    constructor
    · rintro ⟨value,closed⟩
      exact .inr ⟨beyond,value,closed⟩
    · rintro (⟨before,l,behind,rfl,rfl,_⟩ | ⟨_,value,closed⟩)
      · rw [unlines_append,List.length_append] at beyond
        omega
      · exact ⟨value,closed⟩

theorem oneToClose_iff {headers : Nat} (read : headerSection text = some (headers,lines)) :
    OneToClose text first ls ↔
      ∃ h line, lastConnection headers lines = some (h,line) ∧ ClosesOne first ls h line := by
  constructor
  · rintro ⟨_,_,h,line,read',last,one⟩
    cases read.symm.trans read'
    exact ⟨h,line,last,one⟩
  · rintro ⟨h,line,last,one⟩
    exact ⟨headers,lines,h,line,read,last,one⟩

/-- The call closes the `Connection` headers of the section and does nothing else,
    exactly when at most the last one that is read is left to close, and that with
    room for `close`. -/
theorem replaced_iff (noNul : 0 ∉ text) (size : host.length = hValSize)
    (is : sectionOf 13 10 text = some (first,ls,body)) (taken : ¬ Refuses (text ++ 0 :: rest) host) :
    Replaced text rest host first ls body ↔ OneToClose text first ls := by
  have sectioned := sectioned_iff.mp is
  obtain ⟨headers,lines,value,reads⟩ := (refuses_iff noNul rest size).mp taken
  rw [oneToClose_iff reads.read]
  rcases string_of_reads noNul size reads with ⟨host',after,parsed,string⟩ | ⟨none,overflow⟩
  · rw [replaced_of_call parsed string]
    cases last : lastConnection headers lines with
    | none =>
      refine iff_of_false (fun same => ?_) fun ⟨_,_,found,_⟩ => nomatch found
      have nonempty : lines ≠ [] := by
        rintro rfl
        cases reads.host
      obtain ⟨e,found⟩ := headersEnd_of_headerSection reads.read nonempty
      rw [reconnected,found] at same
      have edited := sectioned_closed sectioned
      rw [← same] at edited
      have longer := inserted_section sectioned found edited
      omega
    | some found =>
      obtain ⟨h,line⟩ := found
      rw [reconnected,closed_iff noNul sectioned reads.read last]
      constructor
      · intro one
        exact ⟨h,line,rfl,one⟩
      · rintro ⟨_,_,same,one⟩
        cases same
        exact one
  · refine iff_of_false ?_ ?_
    · rintro ⟨_,_,parsed,_⟩
      cases overflow.symm.trans parsed
    · rintro ⟨_,_,last,_⟩
      cases none.symm.trans last

/-- The value has one byte: `close` goes over the end of its line. -/
def shortValue : List Byte := ascii "GET / HTTP/1.1\r\nHost: a\r\nConnection: x\r\nX: y\r\n\r\n"

/-- There are two `Connection` headers: the first one stays. -/
def twoHeaders : List Byte :=
  ascii "GET / HTTP/1.1\r\nHost: a\r\nConnection: keep-alive\r\nConnection: keep-alive\r\n\r\n"

def shortLines : List (List Byte) := [ascii "Host: a",ascii "Connection: x",ascii "X: y"]

def twoLines : List (List Byte) := [ascii "Host: a",ascii "Connection: keep-alive",ascii "Connection: keep-alive"]

theorem section_shortValue : sectionOf 13 10 shortValue = some (ascii "GET / HTTP/1.1",shortLines,[]) := by
  decide +kernel

theorem section_twoHeaders : sectionOf 13 10 twoHeaders = some (ascii "GET / HTTP/1.1",twoLines,[]) := by
  decide +kernel

theorem reads_shortValue : Reads shortValue 16
    [⟨ascii "Host",1,ascii "a"⟩,⟨ascii "Connection",1,ascii "x"⟩,⟨ascii "X",1,ascii "y"⟩] (ascii "a") :=
  ⟨by decide,by decide⟩

theorem reads_twoHeaders : Reads twoHeaders 16 [⟨ascii "Host",1,ascii "a"⟩,
    ⟨ascii "Connection",1,ascii "keep-alive"⟩,⟨ascii "Connection",1,ascii "keep-alive"⟩] (ascii "a") :=
  ⟨by decide,by decide⟩

theorem not_replaced :
    sectionOf 13 10 shortValue = some (ascii "GET / HTTP/1.1",shortLines,[]) ∧
    (∃ host' after, parseHeaders (shortValue ++ 0 :: array 20) (array hValSize) = some (.ok host',after) ∧
      cstring after 0 = ascii "GET / HTTP/1.1\r\nHost: a\r\nConnection: close y\r\n\r\n") ∧
    ¬ Replaced shortValue (array 20) (array hValSize) (ascii "GET / HTTP/1.1") shortLines [] ∧
    sectionOf 13 10 twoHeaders = some (ascii "GET / HTTP/1.1",twoLines,[]) ∧
    (∃ host' after, parseHeaders (twoHeaders ++ 0 :: array 20) (array hValSize) = some (.ok host',after) ∧
      cstring after 0 =
        ascii "GET / HTTP/1.1\r\nHost: a\r\nConnection: keep-alive\r\nConnection: close\r\n\r\n") ∧
    ¬ Replaced twoHeaders (array 20) (array hValSize) (ascii "GET / HTTP/1.1") twoLines [] := by
  have size := array_length hValSize
  obtain ⟨host',after,parsed,string⟩ | ⟨none,_⟩ := @string_of_reads shortValue _ (array 20) _ _ _ (by decide) size
    reads_shortValue
  · obtain ⟨host'',after',parsed',string'⟩ | ⟨none,_⟩ := @string_of_reads twoHeaders _ (array 20) _ _ _ (by decide) size
      reads_twoHeaders
    · refine ⟨section_shortValue,⟨host',after,parsed,string.trans (by decide)⟩,?_,section_twoHeaders,
        ⟨host'',after',parsed',string'.trans (by decide)⟩,?_⟩
      · rw [replaced_of_call parsed string]
        decide
      · rw [replaced_of_call parsed' string']
        decide
    · exact absurd none (by decide)
  · exact absurd none (by decide)

theorem replaced_iff_shortValue :
    Replaced shortValue (array 20) (array hValSize) (ascii "GET / HTTP/1.1") shortLines [] ↔
      OneToClose shortValue (ascii "GET / HTTP/1.1") shortLines :=
  replaced_iff (by decide) (array_length _) section_shortValue
    ((refuses_iff (by decide) (array 20) (array_length _)).mpr ⟨_,_,_,reads_shortValue⟩)

/-! ### A section without a `Connection` header -/

/-- The section is the one before with a `Connection` header at its end, and what is
    behind it is the same. -/
def Appended (after : List Byte) (ls : List (List Byte)) (body : List Byte) : Prop :=
  ∃ first', sectionOf 13 10 (cstring after 0) = some (first',ls ++ [ascii "Connection: close"],body)

/-- A second call takes the buffer, returns the same host and leaves it as it is. -/
def Stable (after host' : List Byte) : Prop :=
  ∃ host'', parseHeaders after (array hValSize) = some (.ok host'',after) ∧ cstring host'' 0 = cstring host' 0

/-- The call never appends a `Connection` header to a section that has none: the
    header that it puts in leaves a line end too many, and when it has found one
    behind the section it puts none in. -/
theorem never_appended {host' after : List Byte} (noNul : 0 ∉ text) (size : host.length = hValSize)
    (is : sectionOf 13 10 text = some (first,ls,body))
    (free : ∀ l ∈ ls, ∀ line, lineOf l = some line → ¬ line.Named "connection")
    (parsed : parseHeaders (text ++ 0 :: rest) host = some (.ok host',after)) :
    ¬ Appended after ls body := by
  rintro ⟨first',appended⟩
  have sectioned := sectioned_iff.mp is
  have edited := sectioned_iff.mp appended
  obtain ⟨headers,lines,reads⟩ := reads_of_ok noNul size parsed
  rcases string_of_reads noNul size reads with ⟨_,_,parsed',string⟩ | ⟨_,overflow⟩
  · cases parsed.symm.trans parsed'
    rw [string] at edited
    cases last : lastConnection headers lines with
    | none =>
      have nonempty : lines ≠ [] := by
        rintro rfl
        cases reads.host
      obtain ⟨e,found⟩ := headersEnd_of_headerSection reads.read nonempty
      rw [last,reconnected,found] at edited
      have longer := inserted_section sectioned found edited
      omega
    | some found =>
      obtain ⟨h,line⟩ := found
      rw [last,reconnected] at edited
      obtain ⟨_,⟨before,l,behind,rfl,is_line,_⟩ | beyond⟩ := lastConnection_section noNul sectioned reads.read last
      · exact free l (by simp) line is_line (lastConnection_mem last).2.2
      · obtain ⟨body',closed,_⟩ := closed_behind sectioned beyond line
        rw [closed] at edited
        have kept : Sectioned 13 10 (first ++ 13 :: 10 :: (unlines 13 10 ls ++ 13 :: 10 :: body')) first ls body' :=
          ⟨rfl,sectioned.first,sectioned.clean,sectioned.filled⟩
        have lengths := congrArg List.length (sectioned_unique (by decide) kept edited).2.1
        rw [List.length_append] at lengths
        simp at lengths
  · cases overflow.symm.trans parsed

theorem section_hostOnly : sectionOf 13 10 hostOnly = some (ascii "GET / HTTP/1.1",[ascii "Host: a.b"],[]) := by
  decide +kernel

theorem reads_hostOnly : Reads hostOnly 16 [⟨ascii "Host",1,ascii "a.b"⟩] (ascii "a.b") := ⟨by decide,by decide⟩

/-- Behind the first call the host has become a part of the next line. -/
def hostOnlyAfter : List Byte := ascii "GET / HTTP/1.1\r\nHost: a.b\nConnection: close\r\n\r\n\r\n"

theorem reads_hostOnlyAfter : Reads hostOnlyAfter 16 [⟨ascii "Host",1,ascii "a.b\nConnection: close"⟩]
    (ascii "a.b\nConnection: close") := ⟨by decide,by decide⟩

theorem not_appended : ∃ host' rest', cstring host' 0 = ascii "a.b" ∧
    parseHeaders (hostOnly ++ 0 :: array 60) (array hValSize) = some (.ok host',hostOnlyAfter ++ 0 :: rest') ∧
    ¬ Appended (hostOnlyAfter ++ 0 :: rest') [ascii "Host: a.b"] [] ∧ ¬ Stable (hostOnlyAfter ++ 0 :: rest') host' := by
  have size := array_length hValSize
  obtain ⟨_,host',rest',_,string,parsed⟩ | ⟨_,full,_⟩ := parseHeaders_of_reads (by decide)
    (array 60) size reads_hostOnly
  · have edited : reconnected hostOnly (lastConnection 16 [⟨ascii "Host",1,ascii "a.b"⟩]) = hostOnlyAfter := by decide
    rw [edited] at parsed
    refine ⟨host',rest',string,parsed,?_,?_⟩
    · rintro ⟨first',appended⟩
      have after : sectionOf 13 10 hostOnlyAfter =
          some (ascii "GET / HTTP/1.1",[ascii "Host: a.b\nConnection: close"],[13,10]) := by decide +kernel
      rw [cstring_text (by decide) (Nat.zero_le _),List.drop_zero,after] at appended
      simp at appended
    · rintro ⟨host'',parsed',string'⟩
      obtain ⟨_,_,reads⟩ := reads_of_ok (by decide) size parsed'
      obtain ⟨_,_,other⟩ := reads_unique reads reads_hostOnlyAfter
      rw [string',string] at other
      exact absurd other (by decide)
  · exact absurd full (by decide)

theorem never_appended_hostOnly : ∃ host' after,
    parseHeaders (hostOnly ++ 0 :: array 60) (array hValSize) = some (.ok host',after) ∧
      ¬ Appended after [ascii "Host: a.b"] [] := by
  have size := array_length hValSize
  have is_line : lineOf (ascii "Host: a.b") = some ⟨ascii "Host",1,ascii "a.b"⟩ := by decide
  have free : ∀ l ∈ [ascii "Host: a.b"], ∀ line, lineOf l = some line → ¬ line.Named "connection" := by
    intro l member line is
    rw [List.mem_singleton.mp member,is_line] at is
    cases is
    decide
  obtain ⟨_,host',rest',_,_,parsed⟩ | ⟨_,full,_⟩ := parseHeaders_of_reads (by decide) (array 60) size reads_hostOnly
  · exact ⟨host',_,parsed,never_appended (by decide) size section_hostOnly free parsed⟩
  · exact absurd full (by decide)

end Os5Sem.ConnectionHeader
