import Os5Sem.Forwarding
import Os5Sem.RequestLine

/-!
The removal of an absolute URL from the request, against the target of the request
line. The code looks for `http://` and then for a slash in the whole buffer, so
that it leaves the rest of the request alone only when it finds the target first,
and a slash in it (`target_iff`).
-/
namespace Os5Sem.UrlRemoval
open Os5Sem.Occurrences Os5Sem.CMemory Os5Sem.Handler Os5Sem.RequestText Os5Sem.RequestLength Os5Sem.Forwarding
open Os5Sem.RequestLine

/-- The target of the request line, the second token, and where it is. -/
def target (text : List Byte) : Option (Nat × List Byte) := do
  let (_,text') ← scanString 15 text
  let (url,text'') ← scanString 2047 text'
  return (text.length-text''.length-url.length,url)

/-- The path of an absolute URL: from the first slash behind `http://` on. -/
def pathOf (url : List Byte) : List Byte :=
  match search [47] (url.drop 7) with
  | some slash => url.drop (7+slash)
  | none => [47]

/-- An absolute target becomes its path, and nothing else changes; another target
    stays, and so does the buffer. -/
def TargetOnly (text rest : List Byte) (start : Nat) (url after : List Byte) : Prop :=
  if ascii "http://" <+: url then cstring after 0 = text.take start ++ (pathOf url ++ text.drop (start+url.length))
  else after = text ++ 0 :: rest

variable {text url : List Byte} {start : Nat}

theorem target_split (is : target text = some (start,url)) :
    ∃ front behind, text = front ++ (url ++ behind) ∧ start = front.length := by
  obtain ⟨⟨method,text'⟩,first,is⟩ := Option.bind_eq_some_iff.mp is
  obtain ⟨⟨token,text''⟩,second,is⟩ := Option.bind_eq_some_iff.mp is
  obtain ⟨lead,rfl,_,_⟩ := scanString_eq_some.mp first
  obtain ⟨gap,rfl,_,_⟩ := scanString_eq_some.mp second
  cases is
  refine ⟨lead ++ (method ++ gap),text'',by simp,?_⟩
  simp only [List.length_append]
  omega

theorem pathOf_length (absolute : ascii "http://" <+: url) : (pathOf url).length < url.length := by
  have seven := absolute.length_le
  rw [show (ascii "http://").length = 7 by decide] at seven
  unfold pathOf
  split
  · rw [List.length_drop]; omega
  · rw [List.length_singleton]; omega

/-- Where the code finds no URL, it leaves the buffer alone. -/
theorem removeUrl_none (noNul : 0 ∉ text) (rest : List Byte) (none : urlSpan text = none) :
    removeUrl (text ++ 0 :: rest) = some (text ++ 0 :: rest) := by
  rw [removeUrl,strstr_text noNul (Nat.zero_le _),List.drop_zero]
  unfold urlSpan at none
  cases found : search (ascii "http://") text with
  | none => rfl
  | some u =>
    rw [found] at none
    have startIn := search_bound found
    rw [show (ascii "http://").length = 7 by decide] at startIn
    simp only [Option.map_some,Nat.zero_add,strchr,strstr_text noNul startIn,Option.map_eq_none_iff.mp none,
      Option.map_none]

theorem cstring_removed (noNul : 0 ∉ text) (rest : List Byte) : ∃ after,
    removeUrl (text ++ 0 :: rest) = some after ∧ cstring after 0 = urlRemoved text := by
  obtain ⟨left,_,removed⟩ := removeUrl_text noNul
  refine ⟨_,removed rest,?_⟩
  rw [cstring_text (urlRemoved_noNul noNul) (Nat.zero_le _),List.drop_zero]

/-- A slash in the target is the first one behind its `http://`. -/
theorem urlSpan_of_target {front behind : List Byte} {slash : Nat}
    (found : search (ascii "http://") (front ++ (url ++ behind)) = some front.length) (seven : 7 ≤ url.length)
    (slashed : search [47] (url.drop 7) = some slash) :
    urlSpan (front ++ (url ++ behind)) = some (front.length,front.length+(7+slash)) := by
  have drops : (front ++ (url ++ behind)).drop (front.length+7) = url.drop 7 ++ behind := by
    rw [← List.drop_drop,List.drop_left,List.drop_append_of_le_length seven]
  refine urlSpan_eq_some.mpr ⟨found,by omega,?_⟩
  rw [drops,show front.length + (7+slash) - (front.length+7) = slash by omega]
  exact search_append slashed behind

theorem removed_of_span {slash : Nat} (spans : urlSpan text = some (start,slash)) :
    urlRemoved text = text.take start ++ text.drop slash := by
  rw [urlRemoved,spans]

/-- What the code takes out of a request with an absolute target is the authority
    of that target exactly when it finds the target first, and a slash in it. -/
theorem removed_iff {front behind : List Byte} (absolute : ascii "http://" <+: url) :
    urlRemoved (front ++ (url ++ behind)) = front ++ (pathOf url ++ behind) ↔
      47 ∈ url.drop 7 ∧ search (ascii "http://") (front ++ (url ++ behind)) = some front.length := by
  have seven := absolute.length_le
  rw [show (ascii "http://").length = 7 by decide] at seven
  constructor
  · intro same
    have shorter := pathOf_length absolute
    have lengths := congrArg List.length same
    simp only [List.length_append] at lengths
    cases spans : urlSpan (front ++ (url ++ behind)) with
    | none =>
      rw [urlRemoved,spans] at lengths
      simp only [List.length_append] at lengths
      omega
    | some span =>
      obtain ⟨u,slash⟩ := span
      obtain ⟨found,behind_url,slashed⟩ := urlSpan_eq_some.mp spans
      obtain ⟨slash_here,slash_first⟩ := search_singleton.mp slashed
      have removed := urlRemoved_length spans
      simp only [List.length_append] at removed
      have first : u ≤ front.length := by
        by_contra later
        refine (search_eq_some.mp found).2.2 front.length (by omega) ?_
        rw [List.drop_left]
        exact absolute.trans (List.prefix_append ..)
      rw [List.getElem?_drop,show u + 7 + (slash-(u+7)) = slash by omega] at slash_here
      have slashIn := (List.getElem?_eq_some_iff.mp slash_here).1
      rcases first.eq_or_lt with rfl | before
      · refine ⟨?_,found⟩
        by_contra missing
        have path : pathOf url = [47] := by
          unfold pathOf
          cases none : search [47] (url.drop 7) with
          | none => rfl
          | some k => exact absurd (List.mem_of_getElem? (search_singleton.mp none).1) missing
        -- The first slash stands behind the target.
        have outside : front.length + url.length ≤ slash := by
          by_contra within
          refine missing (List.mem_of_getElem? (i := slash-(front.length+7)) ?_)
          rw [List.getElem?_append_right (by omega),List.getElem?_append_left (by omega)] at slash_here
          rw [List.getElem?_drop,show 7 + (slash-(front.length+7)) = slash-front.length by omega]
          exact slash_here
        rw [path,List.length_singleton] at lengths
        omega
      · -- An `h` stands where the code puts a slash.
        have h := congrArg (·[u]?) same
        rw [removed_of_span spans,List.getElem?_append_right (by rw [List.length_take]; omega),List.length_take,
          List.getElem?_drop,List.getElem?_append_left before] at h
        rw [show slash + (u - min u (front ++ (url ++ behind)).length) = slash by
          simp only [List.length_append]; omega,slash_here] at h
        have letter := (List.prefix_iff_getElem?.mp (search_eq_some.mp found).2.1) 0 (by decide)
        rw [List.getElem?_drop,Nat.add_zero,List.getElem?_append_left before,← h] at letter
        exact absurd letter (by decide)
  · rintro ⟨member,found⟩
    obtain ⟨front',behind',split⟩ := List.append_of_mem member
    obtain ⟨slash,slashed⟩ : ∃ slash, search [47] (url.drop 7) = some slash :=
      search_of_inside ⟨front',behind',by simp [split]⟩
    have spans := urlSpan_of_target found seven slashed
    have inside := search_bound slashed
    rw [List.length_drop,List.length_singleton] at inside
    rw [removed_of_span spans,List.take_left,pathOf,slashed,← List.drop_drop,List.drop_left,
      List.drop_append_of_le_length (by omega)]

/-- The removal touches the target of the request line only, exactly when an
    absolute target has a slash behind its host and no `http://` before it, or a
    target that is not absolute comes with no `http://` that has a slash behind it. -/
theorem target_iff (noNul : 0 ∉ text) (rest : List Byte) :
    (∀ start url after, target text = some (start,url) → removeUrl (text ++ 0 :: rest) = some after →
      TargetOnly text rest start url after) ↔
    ∀ start url, target text = some (start,url) →
      if ascii "http://" <+: url then 47 ∈ url.drop 7 ∧ search (ascii "http://") text = some start
      else urlSpan text = none := by
  obtain ⟨after,removed,string⟩ := cstring_removed noNul rest
  have each : ∀ {start url}, target text = some (start,url) → (TargetOnly text rest start url after ↔
      if ascii "http://" <+: url then 47 ∈ url.drop 7 ∧ search (ascii "http://") text = some start
      else urlSpan text = none) := by
    intro start url is
    unfold TargetOnly
    split
    · rename_i absolute
      obtain ⟨front,behind,rfl,rfl⟩ := target_split is
      rw [string,List.take_left,← List.drop_drop,List.drop_left,List.drop_left]
      exact removed_iff absolute
    · constructor
      · intro same
        by_contra found
        obtain ⟨⟨u,slash⟩,spans⟩ := Option.ne_none_iff_exists'.mp found
        have length := urlRemoved_length spans
        have behind := (urlSpan_eq_some.mp spans).2.1
        rw [same,cstring_text noNul (Nat.zero_le _),List.drop_zero] at string
        rw [← string] at length
        omega
      · intro none
        exact Option.some.inj (removed.symm.trans (removeUrl_none noNul rest none))
  constructor
  · intro only start url is
    exact (each is).mp (only start url after is removed)
  · intro cond start url after' is removed'
    obtain rfl := Option.some.inj (removed.symm.trans removed')
    exact (each is).mpr (cond start url is)

/-- The buffer behind the two parsers, when they take the request. -/
def prepared (buffer : List Byte) : Option (List Byte) :=
  match parseRequestLine buffer with
  | some (.ok _,first) =>
    match parseHeaders first (array hValSize) with
    | some (.ok _,second) => some second
    | _ => none
  | _ => none

/-- An absolute target without a path: the first slash is that of the version. -/
def noPath : List Byte := ascii "GET http://a.b HTTP/1.1\r\nHost: a.b\r\nConnection: close\r\n\r\n"

/-- A relative target, and an absolute URL in a header. -/
def referred : List Byte := ascii "GET / HTTP/1.1\r\nHost: a.b\r\nReferer: http://c/d\r\nConnection: close\r\n\r\n"

theorem target_missed :
    (prepared (noPath ++ [0]) = some (noPath ++ [0]) ∧
      (removeUrl (noPath ++ [0])).map (cstring · 0) =
        some (ascii "GET /1.1\r\nHost: a.b\r\nConnection: close\r\n\r\n") ∧
      ¬ ∀ start url after, target noPath = some (start,url) → removeUrl (noPath ++ [0]) = some after →
        TargetOnly noPath [] start url after) ∧
    prepared (referred ++ [0]) = some (referred ++ [0]) ∧
      (removeUrl (referred ++ [0])).map (cstring · 0) =
        some (ascii "GET / HTTP/1.1\r\nHost: a.b\r\nReferer: /d\r\nConnection: close\r\n\r\n") ∧
      ¬ ∀ start url after, target referred = some (start,url) → removeUrl (referred ++ [0]) = some after →
        TargetOnly referred [] start url after := by
  refine ⟨⟨by decide +kernel,by decide +kernel,fun only => ?_⟩,by decide +kernel,by decide +kernel,fun only => ?_⟩
  · obtain ⟨after,removed,string⟩ := cstring_removed (by decide : 0 ∉ noPath) []
    have there : target noPath = some (4,ascii "http://a.b") := by decide
    have same := only _ _ after there removed
    rw [TargetOnly,if_pos (by decide),string] at same
    exact absurd same (by decide +kernel)
  · obtain ⟨after,removed,string⟩ := cstring_removed (by decide : 0 ∉ referred) []
    have there : target referred = some (4,ascii "/") := by decide
    have same := only _ _ after there removed
    rw [TargetOnly,if_neg (by decide)] at same
    rw [same] at string
    exact absurd string (by decide +kernel)

theorem target_iff_noPath :
    (∀ start url after, target noPath = some (start,url) → removeUrl (noPath ++ [0]) = some after →
      TargetOnly noPath [] start url after) ↔
    ∀ start url, target noPath = some (start,url) →
      if ascii "http://" <+: url then 47 ∈ url.drop 7 ∧ search (ascii "http://") noPath = some start
      else urlSpan noPath = none :=
  target_iff (by decide) []

end Os5Sem.UrlRemoval
