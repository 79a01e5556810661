import Os5Sem.Occurrences
import Mathlib.Data.List.TakeWhile

/-!
Lists split into words and into lines. The words of a list are what stands between
separators (`words_eq_cons`). A line ends with two items, `cr` and `lf`, and a
section of lines ends with an empty one: a list is read as what stands before the
first line end, the lines of the section and what is behind it in one way only
(`sectioned_unique`).
-/
namespace Os5Sem.Lines
open Os5Sem.Occurrences
universe u

variable {α : Type u}

/-! ### Line ends -/

variable {cr lf : α}

/-- No line ends in it. -/
def Clean (cr lf : α) (line : List α) : Prop := ¬ [cr,lf] <:+: line

/-- The lines, each with its end. -/
def unlines (cr lf : α) (lines : List (List α)) : List α := lines.flatMap (· ++ [cr,lf])

@[simp] theorem unlines_nil : unlines cr lf [] = [] := rfl

@[simp] theorem unlines_cons (line : List α) (rest : List (List α)) :
    unlines cr lf (line :: rest) = line ++ cr :: lf :: unlines cr lf rest := by
  simp [unlines]

theorem unlines_append (front back : List (List α)) :
    unlines cr lf (front ++ back) = unlines cr lf front ++ unlines cr lf back := by
  simp [unlines]

theorem clean_iff {line : List α} : Clean cr lf line ↔ ∀ j, ¬ [cr,lf] <+: line.drop j := by
  constructor
  · intro clean j occurs
    exact clean (occurs.isInfix.trans (List.drop_suffix j line).isInfix)
  · rintro missing ⟨before,behind,rfl⟩
    apply missing before.length
    rw [List.append_assoc,List.drop_left]
    exact List.prefix_append ..

/-- Nothing that ends a line begins in a clean one. -/
theorem not_end_of_clean (differ : cr ≠ lf) {line behind : List α} (clean : Clean cr lf line) {j : Nat}
    (inside : j < line.length) : ¬ [cr,lf] <+: (line ++ cr :: behind).drop j := by
  rw [List.drop_append_of_le_length (Nat.le_of_lt inside)]
  intro occurs
  have free := clean_iff.mp clean j
  rw [List.drop_eq_getElem_cons inside] at occurs free
  cases next : line.drop (j+1) with
  | nil =>
    rw [next,List.cons_append,List.nil_append,List.cons_prefix_cons,List.cons_prefix_cons] at occurs
    exact differ occurs.2.1.symm
  | cons y ys =>
    rw [next] at occurs free
    simp only [List.cons_append,List.cons_prefix_cons,List.nil_prefix,and_true] at occurs free
    exact free occurs

variable [DecidableEq α]

instance {line : List α} : Decidable (Clean cr lf line) := inferInstanceAs (Decidable (¬ _))

/-! ### Words -/

/-- What stands between the separators, without the empty parts. -/
def words (sep : α) (text : List α) : List (List α) := (text.splitOn sep).filter (· ≠ [])

variable {sep : α} {text : List α}

theorem words_sep : words sep (sep :: text) = words sep text := by
  rw [words,List.splitOn_cons_eq_if_modifyHead,if_pos (beq_self_eq_true sep)]
  rfl

/-- Separators at the start do not matter. -/
theorem words_seps {seps : List α} (all : ∀ c ∈ seps, c = sep) : words sep (seps ++ text) = words sep text := by
  induction seps with
  | nil => rfl
  | cons c seps ih =>
    rw [all c List.mem_cons_self,List.cons_append,words_sep]
    exact ih fun d member => all d (List.mem_cons_of_mem c member)

theorem words_word {word : List α} (some : word ≠ []) (whole : sep ∉ word) (ends : ∀ c ∈ text.head?, c = sep) :
    words sep (word ++ text) = word :: words sep text := by
  cases text with
  | nil => simp [words,List.splitOn_eq_singleton whole,some]
  | cons c text =>
    obtain rfl := ends c rfl
    rw [words_sep,words,List.splitOn_append_cons_self_of_not_mem whole]
    simp [words,some]

theorem words_eq_nil : words sep text = [] ↔ ∀ c ∈ text, c = sep := by
  constructor
  · intro none
    induction text with
    | nil => exact nofun
    | cons c text ih =>
      by_cases isSep : c = sep
      · subst isSep
        rw [words_sep] at none
        exact List.forall_mem_cons.mpr ⟨rfl,ih none⟩
      · obtain ⟨word,words,split⟩ := List.exists_cons_of_ne_nil (List.splitOn_ne_nil sep text)
        rw [Lines.words,List.splitOn_cons_eq_if_modifyHead,if_neg (by simpa using isSep),split] at none
        simp at none
  · intro all
    have nothing := @words_seps α _ sep [] _ all
    rwa [List.append_nil] at nothing

/-- The first word has separators before it, and ends at one or with the text. -/
theorem words_eq_cons {word : List α} {rest : List (List α)} :
    words sep text = word :: rest ↔ ∃ seps behind, text = seps ++ (word ++ behind) ∧ (∀ c ∈ seps, c = sep) ∧
      word ≠ [] ∧ sep ∉ word ∧ (∀ c ∈ behind.head?, c = sep) ∧ words sep behind = rest := by
  constructor
  · intro is
    let seps := text.takeWhile (· = sep)
    let front := text.dropWhile (· = sep)
    let first := front.takeWhile (· ≠ sep)
    let behind := front.dropWhile (· ≠ sep)
    have seps_all : ∀ c ∈ seps, c = sep := fun c member => by simpa using List.mem_takeWhile_imp member
    have first_whole : sep ∉ first := fun member => by simpa using List.mem_takeWhile_imp member
    have split : text = seps ++ (first ++ behind) := by
      rw [List.takeWhile_append_dropWhile,List.takeWhile_append_dropWhile]
    have ends : ∀ c ∈ behind.head?, c = sep := by
      intro c first
      have stops := List.head?_dropWhile_not (fun c => decide (c ≠ sep)) front
      rw [show (front.dropWhile fun c => decide (c ≠ sep)).head? = some c from first] at stops
      simpa using stops
    rw [split,words_seps seps_all] at is
    have some : first ≠ [] := by
      intro none
      have empty : behind = [] := by
        cases here : behind with
        | nil => rfl
        | cons c tail =>
          have isSep := ends c (by rw [here]; rfl)
          have isFront : front = behind := by
            have whole : front = first ++ behind := (List.takeWhile_append_dropWhile ..).symm
            rwa [none] at whole
          have stops := List.head?_dropWhile_not (fun c => decide (c = sep)) text
          rw [show (text.dropWhile fun c => decide (c = sep)).head? = some c from by
            show front.head? = _; rw [isFront,here]; rfl] at stops
          simp [isSep] at stops
      rw [none,empty] at is
      cases is
    rw [words_word some first_whole ends] at is
    obtain ⟨rfl,rfl⟩ := List.cons.inj is
    exact ⟨seps,behind,split,seps_all,some,first_whole,ends,rfl⟩
  · rintro ⟨seps,behind,rfl,all,some,whole,ends,rfl⟩
    rw [words_seps all,words_word some whole ends]

/-! ### Lines -/

/-- The lines of a text that have an end; what has been read of the first one is
    `current`. -/
def linesFrom (cr lf : α) : (current : List α) → List α → List (List α)
  | _, [] => []
  | current, c :: rest =>
    if c = lf ∧ current.getLast? = some cr then current.dropLast :: linesFrom cr lf [] rest
    else linesFrom cr lf (current ++ [c]) rest

def lines (cr lf : α) (text : List α) : List (List α) := linesFrom cr lf [] text

theorem search_line (differ : cr ≠ lf) {line : List α} (clean : Clean cr lf line) (behind : List α) :
    search [cr,lf] (line ++ cr :: lf :: behind) = some line.length := by
  refine search_eq_some.mpr ⟨by simp,?_,fun j before => not_end_of_clean differ clean before⟩
  rw [List.drop_left]
  exact List.prefix_append [cr,lf] behind

theorem clean_take {k : Nat} (found : search [cr,lf] text = some k) : Clean cr lf (text.take k) := by
  refine clean_iff.mpr fun j occurs => ?_
  have short := occurs.length_le
  simp only [List.length_cons,List.length_nil,List.length_drop,List.length_take] at short
  refine (search_eq_some.mp found).2.2 j (by omega) (occurs.trans ?_)
  rw [List.drop_take]
  exact List.take_prefix ..

theorem split_at_end {k : Nat} (found : search [cr,lf] text = some k) :
    text = text.take k ++ cr :: lf :: text.drop (k+2) := by
  obtain ⟨_,⟨behind,is⟩,_⟩ := search_eq_some.mp found
  have after : text.drop (k+2) = behind := by
    rw [← List.drop_drop,← is]
    rfl
  rw [after]
  exact (List.take_append_drop k text).symm.trans (congrArg _ is.symm)

/-- A clean line is read up to its end. -/
theorem linesFrom_line (differ : cr ≠ lf) {current line behind : List α} (clean : Clean cr lf (current ++ line)) :
    linesFrom cr lf current (line ++ cr :: lf :: behind) = (current ++ line) :: linesFrom cr lf [] behind := by
  induction line generalizing current with
  | nil =>
    rw [List.append_nil,List.nil_append,linesFrom,if_neg fun both => differ both.1,linesFrom]
    simp
  | cons c line ih =>
    have stays : ¬ (c = lf ∧ current.getLast? = some cr) := by
      rintro ⟨rfl,last⟩
      obtain ⟨front,rfl⟩ := List.getLast?_eq_some_iff.mp last
      exact clean ⟨front,line,by simp⟩
    rw [List.cons_append,linesFrom,if_neg stays,ih (by simpa using clean)]
    simp

theorem lines_unlines (differ : cr ≠ lf) {ls : List (List α)} (clean : ∀ l ∈ ls, Clean cr lf l) :
    lines cr lf (unlines cr lf ls) = ls := by
  induction ls with
  | nil => rfl
  | cons l ls ih =>
    rw [unlines_cons,lines,@linesFrom_line α cr lf _ differ [] l _ (clean l List.mem_cons_self),List.nil_append]
    exact congrArg _ (ih fun m member => clean m (List.mem_cons_of_mem l member))

/-! ### The section of lines behind the first one -/

/-- The list is a first line, the lines of a section up to an empty one, and what is
    behind it. -/
structure Sectioned (cr lf : α) (text first : List α) (ls : List (List α)) (body : List α) : Prop where
  split : text = first ++ cr :: lf :: (unlines cr lf ls ++ cr :: lf :: body)
  first : Clean cr lf first
  clean : ∀ l ∈ ls, Clean cr lf l
  filled : ∀ l ∈ ls, l ≠ []

/-- The first line, the lines between the first line end and the first two in a row,
    and what is behind these. -/
def sectionOf (cr lf : α) (text : List α) : Option (List α × List (List α) × List α) :=
  (search [cr,lf] text).bind fun line_end => (search [cr,lf,cr,lf] (text.drop line_end)).map fun blank =>
    (text.take line_end,lines cr lf ((text.drop (line_end+2)).take blank),text.drop (line_end+blank+4))

/-- Before the end of a line that has something in it there is no empty line. -/
theorem search_blank_cons (differ : cr ≠ lf) {line : List α} (clean : Clean cr lf line) (filled : line ≠ [])
    (behind : List α) : search [cr,lf,cr,lf] (cr :: lf :: (line ++ cr :: lf :: behind)) =
      (search [cr,lf,cr,lf] (cr :: lf :: behind)).map (· + (line.length+2)) := by
  have two : [cr,lf] <+: [cr,lf,cr,lf] := List.prefix_append [cr,lf] [cr,lf]
  have drops : (cr :: lf :: (line ++ cr :: lf :: behind)).drop (line.length+2) = cr :: lf :: behind := by
    simp
  have skipped : search [cr,lf,cr,lf] (cr :: lf :: (line ++ cr :: lf :: behind)) =
      (search [cr,lf,cr,lf] ((cr :: lf :: (line ++ cr :: lf :: behind)).drop (line.length+2))).map
        (· + (line.length+2)) := by
    refine search_drop (by simp) fun j before occurs => ?_
    match j with
    | 0 =>
      obtain ⟨more,is⟩ := occurs
      have starts : [cr,lf] <+: (line ++ cr :: lf :: behind).drop 0 := by
        simp only [List.cons_append,List.nil_append,List.drop_zero,List.cons.injEq,true_and] at is
        exact ⟨more,is⟩
      exact not_end_of_clean differ clean (List.length_pos_iff.mpr filled) starts
    | 1 =>
      rw [List.drop_succ_cons,List.drop_zero,List.cons_prefix_cons] at occurs
      exact differ occurs.1
    | j+2 => exact not_end_of_clean differ clean (by omega) (two.trans occurs)
  rwa [drops] at skipped

theorem search_blank (differ : cr ≠ lf) {ls : List (List α)} (clean : ∀ l ∈ ls, Clean cr lf l)
    (filled : ∀ l ∈ ls, l ≠ []) (body : List α) :
    search [cr,lf,cr,lf] (cr :: lf :: (unlines cr lf ls ++ cr :: lf :: body)) = some (unlines cr lf ls).length := by
  induction ls with
  | nil =>
    refine search_eq_some.mpr ⟨Nat.zero_le _,?_,nofun⟩
    exact ⟨body,rfl⟩
  | cons l ls ih =>
    have here := search_blank_cons differ (clean l List.mem_cons_self) (filled l List.mem_cons_self)
      (unlines cr lf ls ++ cr :: lf :: body)
    rw [unlines_cons,List.append_assoc,List.cons_append,List.cons_append,here,
      ih (fun m member => clean m (List.mem_cons_of_mem l member)) fun m member =>
        filled m (List.mem_cons_of_mem l member)]
    simp
    omega

/-- Up to the first two line ends in a row there are lines with something in them. -/
theorem lines_of_search (differ : cr ≠ lf) {blank : Nat}
    (found : search [cr,lf,cr,lf] (cr :: lf :: text) = some blank) :
    ∃ ls body, text = unlines cr lf ls ++ cr :: lf :: body ∧ (∀ l ∈ ls, Clean cr lf l) ∧ ∀ l ∈ ls, l ≠ [] := by
  induction size : text.length using Nat.strongRecOn generalizing text blank with
  | ind n ih =>
    subst size
    obtain ⟨_,occurs,_⟩ := search_eq_some.mp found
    by_cases here : [cr,lf] <+: text
    · obtain ⟨body,rfl⟩ := here
      exact ⟨[],body,rfl,nofun,nofun⟩
    · obtain ⟨k,end_found⟩ : ∃ k, search [cr,lf] text = some k := by
        match blank with
        | 0 =>
          obtain ⟨more,is⟩ := occurs
          simp only [List.cons_append,List.nil_append,List.drop_zero,List.cons.injEq,true_and] at is
          exact absurd ⟨more,is⟩ here
        | 1 =>
          rw [List.drop_succ_cons,List.drop_zero,List.cons_prefix_cons] at occurs
          exact absurd occurs.1 differ
        | j+2 =>
          have two : [cr,lf] <+: text.drop j := (List.prefix_append [cr,lf] [cr,lf]).trans occurs
          exact search_of_inside (two.isInfix.trans (List.drop_suffix j text).isInfix)
      have inside := search_bound end_found
      have clean := clean_take end_found
      have split := split_at_end end_found
      have filled : text.take k ≠ [] := by
        intro none
        apply here
        rw [split,none]
        exact ⟨_,rfl⟩
      rw [split,search_blank_cons differ clean filled] at found
      obtain ⟨rest_blank,rest_found,_⟩ := Option.map_eq_some_iff.mp found
      simp only [List.length_cons,List.length_nil] at inside
      obtain ⟨ls,body,is,cleans,filleds⟩ := ih (text.drop (k+2)).length (by rw [List.length_drop]; omega) rest_found rfl
      refine ⟨text.take k :: ls,body,?_,?_,?_⟩
      · rw [unlines_cons,List.append_assoc,List.cons_append,List.cons_append,← is]
        exact split
      · exact List.forall_mem_cons.mpr ⟨clean,cleans⟩
      · exact List.forall_mem_cons.mpr ⟨filled,filleds⟩

theorem sectionOf_sectioned (differ : cr ≠ lf) {first body : List α} {ls : List (List α)}
    (is : Sectioned cr lf text first ls body) : sectionOf cr lf text = some (first,ls,body) := by
  obtain ⟨rfl,clean,cleans,filled⟩ := is
  rw [sectionOf,search_line differ clean]
  simp only [Option.bind_some,List.drop_left,search_blank differ cleans filled,Option.map_some]
  have behind : (first ++ cr :: lf :: (unlines cr lf ls ++ cr :: lf :: body)).drop (first.length+2) =
      unlines cr lf ls ++ cr :: lf :: body := by
    rw [← List.drop_drop,List.drop_left]
    rfl
  have after : (first ++ cr :: lf :: (unlines cr lf ls ++ cr :: lf :: body)).drop
      (first.length + (unlines cr lf ls).length + 4) = body := by
    rw [show first.length + (unlines cr lf ls).length + 4 = first.length + 2 + ((unlines cr lf ls).length + 2) by omega,
      ← List.drop_drop,behind,← List.drop_drop,List.drop_left]
    rfl
  rw [List.take_left,behind,List.take_left,lines_unlines differ cleans,after]

theorem sectionOf_eq_some (differ : cr ≠ lf) {first body : List α} {ls : List (List α)} :
    sectionOf cr lf text = some (first,ls,body) ↔ Sectioned cr lf text first ls body := by
  constructor
  · intro is
    obtain ⟨line_end,end_found,onward⟩ := Option.bind_eq_some_iff.mp is
    obtain ⟨blank,blank_found,_⟩ := Option.map_eq_some_iff.mp onward
    have split := split_at_end end_found
    have inside := search_bound end_found
    have drops : text.drop line_end = cr :: lf :: text.drop (line_end+2) := by
      conv_lhs => rw [split]
      exact List.drop_left' (by rw [List.length_take]; omega)
    rw [drops] at blank_found
    obtain ⟨ls',body',behind,cleans,filled⟩ := lines_of_search differ blank_found
    have sectioned : Sectioned cr lf text (text.take line_end) ls' body' :=
      ⟨by rw [← behind]; exact split,clean_take end_found,cleans,filled⟩
    have same := (sectionOf_sectioned differ sectioned).symm.trans is
    simp only [Option.some.injEq,Prod.mk.injEq] at same
    obtain ⟨rfl,rfl,rfl⟩ := same
    exact sectioned
  · exact sectionOf_sectioned differ

/-- A list is sectioned in one way only. -/
theorem sectioned_unique (differ : cr ≠ lf) {first first' body body' : List α} {ls ls' : List (List α)}
    (one : Sectioned cr lf text first ls body) (two : Sectioned cr lf text first' ls' body') :
    first = first' ∧ ls = ls' ∧ body = body' := by
  have same := (sectionOf_sectioned differ one).symm.trans (sectionOf_sectioned differ two)
  simpa using same

omit [DecidableEq α] in
theorem Sectioned.length_eq {first body : List α} {ls : List (List α)} (is : Sectioned cr lf text first ls body) :
    text.length = first.length + (unlines cr lf ls).length + 4 + body.length := by
  rw [is.split]
  simp only [List.length_append,List.length_cons]
  omega

/-- The first two line ends in a row are the end of the section. -/
theorem Sectioned.search_eq (differ : cr ≠ lf) {first body : List α} {ls : List (List α)}
    (is : Sectioned cr lf text first ls body) :
    search [cr,lf,cr,lf] text = some (first.length + (unlines cr lf ls).length) := by
  obtain ⟨rfl,clean,cleans,filled⟩ := is
  obtain ⟨_,here,before⟩ := search_eq_some.mp (search_blank differ cleans filled body)
  have two : [cr,lf] <+: [cr,lf,cr,lf] := List.prefix_append [cr,lf] [cr,lf]
  refine search_eq_some.mpr ⟨by simp; omega,?_,fun q earlier occurs => ?_⟩
  · rw [← List.drop_drop,List.drop_left]
    exact here
  · by_cases behind_first : first.length ≤ q
    · obtain ⟨j,rfl⟩ := Nat.exists_eq_add_of_le behind_first
      rw [← List.drop_drop,List.drop_left] at occurs
      exact before j (by omega) occurs
    · exact (search_eq_some.mp (search_line differ clean _)).2.2 q (by omega) (two.trans occurs)

/-! ### The number of line ends -/

def ends (cr lf : α) : List α → Nat
  | [] => 0
  | c :: rest => (if [cr,lf] <+: c :: rest then 1 else 0) + ends cr lf rest

theorem ends_cons_ne {c : α} (other : c ≠ cr) (rest : List α) : ends cr lf (c :: rest) = ends cr lf rest := by
  rw [ends,if_neg fun occurs => other (List.cons_prefix_cons.mp occurs).1.symm,Nat.zero_add]

/-- What stands behind an item that ends no line adds its own ends. -/
theorem ends_append {front behind : List α} (apart : ∀ c ∈ behind.head?, c ≠ lf) :
    ends cr lf (front ++ behind) = ends cr lf front + ends cr lf behind := by
  induction front with
  | nil => simp [ends]
  | cons c front ih =>
    have same : [cr,lf] <+: c :: (front ++ behind) ↔ [cr,lf] <+: c :: front := by
      cases front with
      | nil =>
        cases behind with
        | nil => rfl
        | cons d behind =>
          have other := apart d rfl
          simp [other.symm]
      | cons d front => simp
    rw [List.cons_append,ends,ends,ih,Nat.add_assoc]
    simp only [same]

theorem ends_append_end (differ : cr ≠ lf) (front behind : List α) :
    ends cr lf (front ++ cr :: lf :: behind) = ends cr lf front + 1 + ends cr lf behind := by
  have here : [cr,lf] <+: cr :: lf :: behind := List.prefix_append [cr,lf] behind
  rw [ends_append (by simpa using differ),ends,if_pos here,ends_cons_ne differ.symm,Nat.add_assoc]

theorem ends_eq_zero {line : List α} : ends cr lf line = 0 ↔ Clean cr lf line := by
  induction line with
  | nil => exact iff_of_true rfl (by simp [Clean])
  | cons c line ih =>
    rw [ends,Nat.add_eq_zero_iff,ih,Clean,Clean,List.infix_cons_iff,not_or]
    refine and_congr_left' ⟨fun none occurs => ?_,fun none => if_neg none⟩
    rw [if_pos occurs] at none
    cases none

theorem clean_append {front behind : List α} (clean : Clean cr lf front) (clean' : Clean cr lf behind)
    (apart : ∀ c ∈ behind.head?, c ≠ lf) : Clean cr lf (front ++ behind) := by
  rw [← ends_eq_zero] at clean clean' ⊢
  rw [ends_append apart,clean,clean']

theorem ends_unlines (differ : cr ≠ lf) {ls : List (List α)} (clean : ∀ l ∈ ls, Clean cr lf l) (behind : List α) :
    ends cr lf (unlines cr lf ls ++ behind) = ls.length + ends cr lf behind := by
  induction ls with
  | nil => simp
  | cons l ls ih =>
    obtain ⟨clean_l,cleans⟩ := List.forall_mem_cons.mp clean
    rw [unlines_cons,List.append_assoc,List.cons_append,List.cons_append,ends_append_end differ,
      ends_eq_zero.mpr clean_l,
      ih cleans,List.length_cons]
    omega

theorem Sectioned.ends_eq (differ : cr ≠ lf) {first body : List α} {ls : List (List α)}
    (is : Sectioned cr lf text first ls body) : ends cr lf text = ls.length + 2 + ends cr lf body := by
  rw [is.split,ends_append_end differ,ends_eq_zero.mpr is.first,ends_unlines differ is.clean,
    show cr :: lf :: body = [] ++ cr :: lf :: body from rfl,ends_append_end differ,ends]
  omega

theorem ends_le_append (front behind : List α) : ends cr lf front ≤ ends cr lf (front ++ behind) := by
  induction front with
  | nil => exact Nat.zero_le _
  | cons c front ih =>
    have grows : [cr,lf] <+: c :: front → [cr,lf] <+: c :: (front ++ behind) := fun occurs =>
      occurs.trans (List.prefix_append (c :: front) behind)
    rw [List.cons_append,ends,ends]
    by_cases here : [cr,lf] <+: c :: front
    · rw [if_pos here,if_pos (grows here)]
      omega
    · rw [if_neg here]
      omega

theorem ends_drop_le (k : Nat) (text : List α) : ends cr lf (text.drop k) ≤ ends cr lf text := by
  induction text generalizing k with
  | nil => simp
  | cons c text ih =>
    cases k with
    | zero => exact Nat.le_refl _
    | succ k =>
      rw [List.drop_succ_cons,ends]
      exact Nat.le_add_left_of_le (ih k)

/-- A block without `cr` and `lf` that is written over the end of a line takes this
    end away. -/
theorem ends_overwritten (differ : cr ≠ lf) {block value : List α} (noReturn : cr ∉ block) (noFeed : lf ∉ block)
    (longer : value.length < block.length) (front behind : List α) :
    ends cr lf (front ++ (block ++ (value ++ cr :: lf :: behind).drop block.length)) <
      ends cr lf (front ++ (value ++ cr :: lf :: behind)) := by
  have apart : ∀ c ∈ (block ++ (value ++ cr :: lf :: behind).drop block.length).head?, c ≠ lf := by
    obtain ⟨b,block,rfl⟩ := List.exists_cons_of_length_pos (Nat.zero_lt_of_lt longer)
    rintro _ ⟨⟩ rfl
    exact noFeed List.mem_cons_self
  have skipped : ∀ {block : List α} {tail}, cr ∉ block → ends cr lf (block ++ tail) = ends cr lf tail := by
    intro block tail absent
    induction block with
    | nil => rfl
    | cons c block ih =>
      rw [List.mem_cons,not_or] at absent
      rw [List.cons_append,ends_cons_ne (Ne.symm absent.1),ih absent.2]
  obtain ⟨k,more⟩ := Nat.exists_eq_add_of_lt longer
  have over_end : (value ++ cr :: lf :: behind).drop block.length = (lf :: behind).drop k := by
    rw [more,Nat.add_assoc,← List.drop_drop,List.drop_left,List.drop_succ_cons]
  have tail := @ends_drop_le α cr lf _ k (lf :: behind)
  rw [ends_cons_ne differ.symm] at tail
  have start := @ends_le_append α cr lf _ front value
  rw [ends_append apart,skipped noReturn,over_end,← List.append_assoc,ends_append_end differ]
  omega

end Os5Sem.Lines
