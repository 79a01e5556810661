import Os5Sem.RequestText

/-!
How the edits of a request change its length: the digits of the version do not
matter, a `Connection` header with a long value and an absolute URL make it
shorter, and a `Connection` header that is put in makes it longer. `Balanced` are
the requests of which the length stays the same.
-/
namespace Os5Sem.RequestLength
open Os5Sem.Occurrences Os5Sem.CMemory Os5Sem.Handler Os5Sem.RequestText

variable {text : List Byte}

/-! ### Requests that keep their length -/

/-- `http://` stands at `start`, with a slash behind it at `slash`. -/
def UrlAt (text : List Byte) (start slash : Nat) : Prop :=
  ascii "http://" <+: text.drop start ∧ start + 7 ≤ slash ∧ text[slash]? = some 47

/-- The value at `p` has at most five bytes, and any `http://` with a slash behind
    it is broken by the five bytes that are written there. -/
def FitsClose (text : List Byte) (p length : Nat) : Prop :=
  length ≤ 5 ∧ ∀ start slash, UrlAt text start slash → p < start + 7 ∧ start < p + 5 ∨ p ≤ slash ∧ slash < p + 5

/-- The buffer has room for 20 more bytes, and as many are taken out of it again:
    the first `http://` and the first slash behind the host are 20 bytes apart,
    and the end of the headers is not between them. -/
def FitsLine (text : List Byte) : Prop :=
  text.length + 20 < buffSize ∧ ∃ e start, search (ascii "\r\n\r\n") text = some e ∧
    urlSpan text = some (start,start+20) ∧ (e ≤ start ∨ start + 20 ≤ e)

/-- The edits of the request leave its length as it is. -/
def Balanced (request : List Byte) : Prop :=
  ∃ headers lines, headerSection request = some (headers,lines) ∧
    match lastConnection headers lines with
    | some (h,line) => FitsClose request (h+line.valueStart) line.value.length
    | none => FitsLine request

/-- The header section of a request decides which of the two conditions counts. -/
theorem balanced_iff {headers : Nat} {lines : List HeaderLine} (is : headerSection text = some (headers,lines)) :
    Balanced text ↔ match lastConnection headers lines with
      | some (h,line) => FitsClose text (h+line.valueStart) line.value.length
      | none => FitsLine text := by
  constructor
  · rintro ⟨headers',lines',is',fits⟩
    rw [is,Option.some.injEq,Prod.mk.injEq] at is'
    obtain ⟨rfl,rfl⟩ := is'
    exact fits
  · intro fits
    exact ⟨headers,lines,is,fits⟩

theorem urlSpan_eq_some {start slash : Nat} : urlSpan text = some (start,slash) ↔
    search (ascii "http://") text = some start ∧ start + 7 ≤ slash ∧
      search [47] (text.drop (start+7)) = some (slash-(start+7)) := by
  unfold urlSpan
  cases search (ascii "http://") text with
  | none => simp
  | some u =>
    simp only [Option.map_eq_some_iff,Prod.mk.injEq,Option.some.injEq]
    constructor
    · rintro ⟨s,found,rfl,rfl⟩
      exact ⟨rfl,by omega,by rw [found,Nat.add_sub_cancel_left]⟩
    · rintro ⟨rfl,behind,found⟩
      exact ⟨_,found,rfl,by omega⟩

theorem urlSpan_eq_none : urlSpan text = none ↔ ∀ start slash, ¬ UrlAt text start slash := by
  constructor
  · rintro missing start slash ⟨occurs,behind,slashed⟩
    obtain ⟨u,found⟩ := search_of_inside (occurs.isInfix.trans (List.drop_suffix start text).isInfix)
    have first : u ≤ start := by
      by_contra later
      exact (search_eq_some.mp found).2.2 start (by omega) occurs
    rw [urlSpan,found] at missing
    have none := search_eq_none.mp (Option.map_eq_none_iff.mp missing) (slash-(u+7))
    rw [List.drop_drop,show u + 7 + (slash-(u+7)) = slash by omega,List.prefix_iff_getElem?] at none
    exact none fun k inside => by simpa [Nat.lt_one_iff.mp inside] using slashed
  · intro missing
    by_contra found
    obtain ⟨⟨start,slash⟩,spans⟩ := Option.ne_none_iff_exists'.mp found
    obtain ⟨first,behind,slashed⟩ := urlSpan_eq_some.mp spans
    have here := (search_singleton.mp slashed).1
    rw [List.getElem?_drop,show start + 7 + (slash-(start+7)) = slash by omega] at here
    exact missing start slash ⟨(search_eq_some.mp first).2.1,behind,here⟩

/-! ### Digits do not matter -/

/-- `HTTP/1.0` and `HTTP/1.1` are the same. -/
def blur (c : Byte) : Byte := if c = 48 then 49 else c

theorem blur_eq_iff {c : Byte} (zero : c ≠ 48) (one : c ≠ 49) (x : Byte) : blur x = c ↔ x = c := by
  unfold blur
  split
  · rename_i is
    exact iff_of_false (Ne.symm one) (is ▸ Ne.symm zero)
  · rfl

theorem reflects_blur {items : List Byte} (zero : 48 ∉ items) (one : 49 ∉ items) : Reflects blur items := by
  intro c member x
  exact blur_eq_iff (fun is => zero (is ▸ member)) (fun is => one (is ▸ member)) x

/-- A search for what has neither digit finds the same in the blurred text. -/
theorem search_blur {needle : List Byte} (zero : 48 ∉ needle) (one : 49 ∉ needle) (text : List Byte) :
    search needle (text.map blur) = search needle text := search_map (reflects_blur zero one) text

def blurLine (line : HeaderLine) : HeaderLine := ⟨line.name.map blur,line.spaces,line.value.map blur⟩

theorem leadingSpaces_blur (text : List Byte) : leadingSpaces (text.map blur) = leadingSpaces text := by
  have same : ((fun c : Byte => decide (c = 32)) ∘ blur) = fun c => decide (c = 32) := by
    funext x
    exact decide_eq_decide.mpr (blur_eq_iff (by decide) (by decide) x)
  rw [leadingSpaces,leadingSpaces,List.takeWhile_map,List.length_map,same]

theorem headerLine_blur (text : List Byte) : headerLine (text.map blur) = (headerLine text).map blurLine := by
  have blurred : ∀ k, (text.map blur).drop k = (text.drop k).map blur := fun k => List.map_drop.symm
  unfold headerLine
  rw [search_blur (by decide) (by decide)]
  cases search [58] text with
  | none => rfl
  | some colon =>
    simp only
    split
    · rfl
    · simp only [blurred,leadingSpaces_blur,search_blur (by decide : 48 ∉ crlf) (by decide)]
      cases search crlf (text.drop (colon + 1 + leadingSpaces (text.drop (colon+1)))) with
      | none => rfl
      | some length =>
        simp only
        split
        · rfl
        · simp [blurLine,slice,List.map_take,List.map_drop]

theorem scanLines_blur (fuel : Nat) (text : List Byte) :
    scanLines fuel (text.map blur) = (scanLines fuel text).map (List.map blurLine) := by
  induction fuel generalizing text with
  | zero => rfl
  | succ fuel ih =>
    have same : crlf <+: text.map blur ↔ crlf <+: text := prefix_map (reflects_blur (by decide) (by decide))
    rw [scanLines,scanLines,headerLine_blur]
    by_cases empty : crlf <+: text
    · rw [if_pos empty,if_pos (same.mpr empty)]
      rfl
    · rw [if_neg empty,if_neg (fun is => empty (same.mp is))]
      cases headerLine text with
      | none => rfl
      | some line =>
        have length : (blurLine line).length = line.length := by simp [blurLine,HeaderLine.length,HeaderLine.valueStart]
        simp only [Option.map_some,Option.bind_eq_bind,Option.bind_some,length,← List.map_drop,ih]
        cases scanLines fuel (text.drop line.length) <;> rfl

theorem headerSection_blur (text : List Byte) :
    headerSection (text.map blur) = (headerSection text).map fun (headers,lines) => (headers,lines.map blurLine) := by
  rw [headerSection,headerSection,search_blur (by decide) (by decide)]
  cases search crlf text with
  | none => rfl
  | some line_end =>
    simp only [Option.bind_eq_bind,Option.bind_some,List.length_map,← List.map_drop,scanLines_blur]
    cases scanLines (text.length+1) (text.drop (line_end+2)) <;> rfl

theorem map_eq_iff {f g : Byte → Byte} {s t : List Byte} (same : ∀ c ∈ t, ∀ x, f x = c ↔ g x = c) :
    s.map f = t ↔ s.map g = t := by
  induction s generalizing t with
  | nil => rfl
  | cons x s ih =>
    cases t with
    | nil => simp
    | cons c t =>
      rw [List.map_cons,List.map_cons,List.cons.injEq,List.cons.injEq,same c List.mem_cons_self,
        ih fun d member => same d (List.mem_cons_of_mem c member)]

/-- A name without digits is the same with and without the blur. -/
theorem named_blur {line : HeaderLine} {name : String} (noNul : 0 ∉ line.name) (clean : 0 ∉ ascii name)
    (zero : 48 ∉ (ascii name).map toLower) (one : 49 ∉ (ascii name).map toLower) :
    (blurLine line).Named name ↔ line.Named name := by
  have noNul' : 0 ∉ line.name.map blur := by
    intro member
    obtain ⟨x,inside,isNul⟩ := List.mem_map.mp member
    exact noNul ((blur_eq_iff (by decide) (by decide) x).mp isNul ▸ inside)
  have lower : ∀ c ∈ (ascii name).map toLower, ∀ x, (toLower ∘ blur) x = c ↔ toLower x = c := by
    intro c member x
    rw [Function.comp_apply,blur]
    split
    · rename_i is
      rw [is,show toLower 49 = 49 by decide,show toLower 48 = 48 by decide]
      exact iff_of_false (fun same => one (same ▸ member)) fun same => zero (same ▸ member)
    · rfl
  show strcasecmp (line.name.map blur) _ = 0 ↔ strcasecmp line.name _ = 0
  rw [strcasecmp_eq_zero noNul' clean,strcasecmp_eq_zero noNul clean,List.map_map]
  exact map_eq_iff lower

theorem scanLines_noNul {fuel : Nat} {lines : List HeaderLine} (noNul : 0 ∉ text)
    (scanned : scanLines fuel text = some lines) : ∀ line ∈ lines, 0 ∉ line.name := by
  intro line member inside
  obtain ⟨behind,suffix,starts⟩ := startsWith_of_scanLines scanned line member
  rw [starts.name] at inside
  exact noNul (suffix.subset (List.mem_of_mem_take inside))

theorem lastConnection_blur {lines : List HeaderLine} (noNul : ∀ line ∈ lines, 0 ∉ line.name) (headers : Nat) :
    lastConnection headers (lines.map blurLine) = (lastConnection headers lines).map fun (h,line) => (h,
      blurLine line) := by
  induction lines generalizing headers with
  | nil => rfl
  | cons line lines ih =>
    obtain ⟨here,others⟩ := List.forall_mem_cons.mp noNul
    have length : (blurLine line).length = line.length := by simp [blurLine,HeaderLine.length,HeaderLine.valueStart]
    rw [List.map_cons,lastConnection,lastConnection,length,ih others,Option.map_or]
    congr 1
    have same : (blurLine line).Named "connection" ↔ line.Named "connection" :=
      named_blur here (by decide) (by decide) (by decide)
    by_cases named : line.Named "connection"
    · rw [if_pos named,if_pos (same.mpr named)]
      rfl
    · rw [if_neg named,if_neg fun is => named (same.mp is)]
      rfl

theorem urlAt_blur {start slash : Nat} : UrlAt (text.map blur) start slash ↔ UrlAt text start slash := by
  have slashed : (text.map blur)[slash]? = some 47 ↔ text[slash]? = some 47 := by
    rw [List.getElem?_map,Option.map_eq_some_iff]
    constructor
    · rintro ⟨x,is,same⟩
      rwa [(blur_eq_iff (by decide) (by decide) x).mp same] at is
    · intro is
      exact ⟨47,is,by decide⟩
  rw [UrlAt,UrlAt,← List.map_drop,prefix_map (reflects_blur (by decide) (by decide)),slashed]

theorem urlSpan_blur (text : List Byte) : urlSpan (text.map blur) = urlSpan text := by
  simp only [urlSpan,search_blur (by decide : 48 ∉ ascii "http://") (by decide),← List.map_drop,
    search_blur (by decide : 48 ∉ [(47 : Byte)]) (by decide)]

theorem balanced_blur (noNul : 0 ∉ text) : Balanced (text.map blur) ↔ Balanced text := by
  have close : ∀ p length, FitsClose (text.map blur) p length ↔ FitsClose text p length := by
    intro p length
    simp only [FitsClose,urlAt_blur]
  have line : FitsLine (text.map blur) ↔ FitsLine text := by
    rw [FitsLine,FitsLine,List.length_map,urlSpan_blur,search_blur (by decide) (by decide)]
  have blurred := headerSection_blur text
  cases is : headerSection text with
  | none => simp [Balanced,blurred,is]
  | some found =>
    obtain ⟨headers,lines⟩ := found
    have names := scanLines_noNul (fun member => noNul (List.mem_of_mem_drop member)) (scanLines_of_headerSection is)
    rw [is] at blurred
    rw [balanced_iff is,balanced_iff blurred,lastConnection_blur names]
    cases lastConnection headers lines with
    | none => exact line
    | some last =>
      simp only [Option.map_some,close,blurLine,HeaderLine.valueStart,List.length_map]

/-- The edit of the version does not matter. -/
theorem version_blur {p : Nat} (version : ascii "HTTP/1.0" <+: text.drop p ∨ ascii "HTTP/1.1" <+: text.drop p) :
    (overwrite text p (ascii "HTTP/1.1")).map blur = text.map blur := by
  have same : (ascii "HTTP/1.0").map blur = (ascii "HTTP/1.1").map blur := by decide
  have occurs : (ascii "HTTP/1.1").map blur <+: (text.map blur).drop p := by
    rw [← List.map_drop]
    rcases version with old | new
    · rw [← same]; exact old.map blur
    · exact new.map blur
  obtain ⟨behind,is⟩ := occurs
  have skipped : (text.map blur).drop (p + (ascii "HTTP/1.1").length) = behind := by
    rw [← List.drop_drop,← is,List.drop_left' (List.length_map ..)]
  rw [overwrite,List.map_append,List.map_append,List.map_take,List.map_drop,skipped,List.append_assoc,is,
    List.take_append_drop]

/-! ### The edits -/

theorem urlRemoved_length {start slash : Nat} (spans : urlSpan text = some (start,slash)) :
    (urlRemoved text).length + slash = text.length + start := by
  obtain ⟨_,behind,slashed⟩ := urlSpan_eq_some.mp spans
  have slashIn := search_bound slashed
  rw [List.length_drop,List.length_singleton] at slashIn
  rw [urlRemoved,spans]
  simp only [List.length_append,List.length_take,List.length_drop]
  omega

theorem urlRemoved_length_le (text : List Byte) : (urlRemoved text).length ≤ text.length := by
  cases spans : urlSpan text with
  | none => rw [urlRemoved,spans]
  | some span =>
    have length := urlRemoved_length spans
    have behind := (urlSpan_eq_some.mp spans).2.1
    omega

/-- Nothing is taken out exactly when there is no absolute URL. -/
theorem urlRemoved_length_eq : (urlRemoved text).length = text.length ↔ ∀ start slash, ¬ UrlAt text start slash := by
  rw [← urlSpan_eq_none]
  constructor
  · intro same
    by_contra found
    obtain ⟨span,spans⟩ := Option.ne_none_iff_exists'.mp found
    have length := urlRemoved_length spans
    have behind := (urlSpan_eq_some.mp spans).2.1
    omega
  · intro none
    rw [urlRemoved,none]

/-- An absolute URL is left when `close` is not written over it. -/
theorem urlAt_overwrite {p start slash : Nat} (fits : p + 5 ≤ text.length) :
    UrlAt (overwrite text p (ascii "close")) start slash ↔
      UrlAt text start slash ∧ ¬ (p < start + 7 ∧ start < p + 5 ∨ p ≤ slash ∧ slash < p + 5) := by
  have five : (ascii "close").length = 5 := by decide
  have seven : (ascii "http://").length = 7 := by decide
  have occurs : ascii "http://" <+: (overwrite text p (ascii "close")).drop start ↔
      ascii "http://" <+: text.drop start ∧
        (start + (ascii "http://").length ≤ p ∨ p + (ascii "close").length ≤ start) :=
    occurs_overwrite (five ▸ fits) (by decide +kernel) (by decide) (by decide)
  have slashed : (overwrite text p (ascii "close"))[slash]? = some 47 ↔
      text[slash]? = some 47 ∧ ¬ (p ≤ slash ∧ slash < p + 5) := by
    rw [overwrite_getElem? (five ▸ fits),five]
    split
    · rename_i within
      refine iff_of_false (fun is => ?_) fun both => both.2 within
      exact absurd (List.mem_of_getElem? is) (by decide)
    · rename_i outside
      exact (and_iff_left outside).symm
  rw [UrlAt,UrlAt,occurs,slashed,five,seven]
  constructor
  · rintro ⟨⟨here,apart⟩,behind,is,outside⟩
    exact ⟨⟨here,behind,is⟩,by omega⟩
  · rintro ⟨⟨here,behind,is⟩,apart⟩
    exact ⟨⟨here,by omega⟩,behind,is,by omega⟩

/-- The edit of a `Connection` header, and then of the URL. -/
theorem closed_length {p length : Nat} (filled : length ≠ 0) (inside : p + length + 4 ≤ text.length) :
    (urlRemoved (closed text p length)).length = text.length ↔ FitsClose text p length := by
  have five : (ascii "close").length = 5 := by decide
  rw [closed,FitsClose]
  split
  · rename_i longer
    have shorter := urlRemoved_length_le (text.take p ++ ascii "close" ++ text.drop (p+length))
    simp only [List.length_append,List.length_take,List.length_drop,five] at shorter
    exact iff_of_false (by omega) fun fits => absurd fits.1 (by omega)
  · rename_i short
    have fits : p + (ascii "close").length ≤ text.length := by omega
    rw [← overwrite_length fits,urlRemoved_length_eq]
    simp only [urlAt_overwrite (five ▸ fits),not_and,Decidable.not_not]
    exact (and_iff_right (by omega)).symm

/-- The end of the headers starts with a carriage return. -/
theorem headersEnd_return {e : Nat} (found : search (ascii "\r\n\r\n") text = some e) : 13 ∈ (text.drop e).head? := by
  obtain ⟨behind,is⟩ := (search_eq_some.mp found).2.1
  rw [← is]
  rfl

/-- A `Connection` header that is put in at `e` moves what is behind it. -/
theorem urlSpan_insert {e : Nat} (found : search (ascii "\r\n\r\n") text = some e) :
    urlSpan (text.take e ++ connectionLine ++ text.drop e) = (urlSpan text).map fun (start,slash) =>
      (if start < e then start else start+20,if slash < e then slash else slash+20) := by
  have inside := (search_eq_some.mp found).1
  have twenty : connectionLine.length = 20 := by decide
  have front : (text.take e).length = e := by rw [List.length_take]; omega
  have next := headersEnd_return found
  have url : search (ascii "http://") (text.take e ++ (connectionLine ++ text.drop e)) =
      (search (ascii "http://") (text.take e ++ text.drop e)).map fun u =>
        if u < (text.take e).length then u else u + connectionLine.length :=
    search_insert (by decide : 104 ∈ (ascii "http://").head?) (by decide) (by decide : 10 ∈ connectionLine.head?)
      (by decide)
      next (by decide)
  rw [List.take_append_drop,front,twenty] at url
  rw [urlSpan,urlSpan,List.append_assoc,url]
  cases search_is : search (ascii "http://") text with
  | none => rfl
  | some start =>
    have seven : (ascii "http://").length = 7 := by decide
    have uncut : ¬ (start ≤ e ∧ e < start + 7) := by
      rintro ⟨low,high⟩
      have here := List.prefix_iff_getElem?.mp (search_eq_some.mp search_is).2.1 (e-start) (by omega)
      rw [List.getElem?_drop,Nat.add_sub_cancel' low] at here
      have return_is : text[e]? = some 13 := by rw [← List.head?_drop]; exact next
      rw [return_is] at here
      exact absurd (List.mem_of_getElem (Option.some.inj here).symm) (by decide)
    simp only [Option.map_some]
    split
    · rename_i before
      have dropped : (text.take e ++ (connectionLine ++ text.drop e)).drop (start+7) =
          (text.take e).drop (start+7) ++ (connectionLine ++ text.drop e) := List.drop_append_of_le_length (by omega)
      have whole : (text.take e).drop (start+7) ++ text.drop e = text.drop (start+7) := by
        rw [← List.drop_append_of_le_length (by omega),List.take_append_drop]
      have slash : search [47] ((text.take e).drop (start+7) ++ (connectionLine ++ text.drop e)) =
          (search [47] ((text.take e).drop (start+7) ++ text.drop e)).map fun u =>
            if u < ((text.take e).drop (start+7)).length then u else u + connectionLine.length :=
        search_insert (by decide : 47 ∈ List.head? [(47 : Byte)]) (by decide) (by decide : 10 ∈ connectionLine.head?)
          (by decide)
          next (by decide)
      rw [dropped,slash,whole,Option.map_map,Option.map_map]
      congr 1
      funext s
      simp only [Function.comp_apply,List.length_drop,front,twenty,if_pos before,Prod.mk.injEq,true_and]
      split <;> split <;> omega
    · rename_i notBefore
      have dropped : (text.take e ++ (connectionLine ++ text.drop e)).drop (start+20+7) = text.drop (start+7) := by
        rw [← List.append_assoc,List.drop_append,List.drop_eq_nil_of_le,List.nil_append,List.drop_drop]
        · congr 1
          rw [List.length_append,front,twenty]
          omega
        · rw [List.length_append,front,twenty]
          omega
      rw [dropped,Option.map_map]
      congr 1
      funext s
      simp only [Function.comp_apply,if_neg notBefore,Prod.mk.injEq,true_and]
      split <;> omega

/-- The edit that puts a `Connection` header in, and then that of the URL. -/
theorem inserted_length {e : Nat} (found : search (ascii "\r\n\r\n") text = some e) :
    (urlRemoved (text.take e ++ connectionLine ++ text.drop e)).length = text.length ↔
      ∃ start, urlSpan text = some (start,start+20) ∧ (e ≤ start ∨ start + 20 ≤ e) := by
  have inside := (search_eq_some.mp found).1
  have twenty : connectionLine.length = 20 := by decide
  have longer : (text.take e ++ connectionLine ++ text.drop e).length = text.length + 20 := by
    simp only [List.length_append,List.length_take,List.length_drop,twenty]
    omega
  have moved := urlSpan_insert found
  cases spans : urlSpan text with
  | none =>
    rw [spans,Option.map_none] at moved
    rw [urlRemoved,moved]
    simp only [longer]
    simp
  | some span =>
    obtain ⟨start,slash⟩ := span
    obtain ⟨_,behind,slashed⟩ := urlSpan_eq_some.mp spans
    have slash_is := (search_singleton.mp slashed).1
    rw [List.getElem?_drop,Nat.add_sub_cancel' behind] at slash_is
    have notReturn : slash ≠ e := by
      rintro rfl
      have next := headersEnd_return found
      rw [List.head?_drop,slash_is] at next
      cases next
    rw [spans,Option.map_some] at moved
    have length := urlRemoved_length moved
    rw [longer] at length
    simp only [Option.some.injEq,Prod.mk.injEq]
    constructor
    · intro same
      refine ⟨start,⟨rfl,?_⟩,?_⟩
      · split at length <;> split at length <;> omega
      · split at length <;> split at length <;> omega
    · rintro ⟨_,⟨rfl,rfl⟩,apart⟩
      split at length <;> split at length <;> omega

end Os5Sem.RequestLength
