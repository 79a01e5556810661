import Os5Sem.Handler
import Mathlib.Data.Nat.Digits.Defs

/-!
The name and the port that `resolve_host` reads off a host. The name is the part
before the first colon, for every host that fits into its array. The number behind
the colon goes through `atoi` and `htons`, which cut it to 32 and then to 16 bits,
so that it is the port only when it is one (`as_written_iff`).
-/
namespace Os5Sem.HostResolution
open Os5Sem.CMemory Os5Sem.Handler Os5Sem.Occurrences

variable {text rest : List Byte}

/-! ### What is written -/

/-- The part before the first colon. -/
def nameOf (text : List Byte) : List Byte := text.takeWhile (· ≠ 58)

/-- What stands behind the first colon. -/
def portText (text : List Byte) : List Byte := (text.dropWhile (· ≠ 58)).drop 1

/-- The number that a decimal numeral stands for. -/
def valueOf (digits : List Byte) : Nat := Nat.ofDigits 10 (digits.reverse.map fun c => c.toNat-48)

example : valueOf (ascii "08080") = 8080 := by decide

/-- A decimal numeral, when it is not empty. -/
def Digits (text : List Byte) : Prop := ∀ c ∈ text, isDigit c = true

instance (text : List Byte) : Decidable (Digits text) := List.decidableBAll _ text

/-- The port is the one that is written, when it is one, and `HTTP_PORT` when it is
    not one or none is written. Of other texts than numerals nothing is asked. -/
def PortAsWritten (text : List Byte) (port : Nat) : Prop :=
  if portText text = [] then (port : Int) = httpPort
  else if Digits (portText text) then
    if 1 ≤ valueOf (portText text) ∧ valueOf (portText text) ≤ 65535 then port = valueOf (portText text)
    else (port : Int) = httpPort
  else True

/-! ### What is read -/

/-- The part of `resolve_host` before the call of `getaddrinfo`: the array
    `host_name`, and the port. -/
def splitHost (host : List Byte) : Option (List Byte × Int) :=
  match strchr host 0 58 with
  | some colon => do
    let host_name ← memcpy (array hValSize) 0 (slice host 0 colon)
    let host_name ← memcpy host_name colon [0]
    let port := atoi (cstring host (colon+1))
    pure (host_name,if port = 0 then httpPort else port)
  | none => do
    let host_name ← memcpy (array hValSize) 0 ((cstring host 0).take hValSize)
    let host_name ← memcpy host_name (hValSize-1) [0]
    pure (host_name,httpPort)

theorem resolveHost_eq (getaddrinfo : List Byte → Option Nat) (host : List Byte) :
    resolveHost getaddrinfo host = (splitHost host).map fun split =>
      (getaddrinfo (cstring split.1 0)).map fun addr => ⟨addr,(split.2 % 65536).toNat⟩ := by
  rw [resolveHost,splitHost]
  cases strchr host 0 58 with
  | none =>
    cases memcpy (array hValSize) 0 ((cstring host 0).take hValSize) with
    | none => simp
    | some host_name => cases ended : memcpy host_name (hValSize-1) [0] <;> simp [ended]
  | some colon =>
    cases memcpy (array hValSize) 0 (slice host 0 colon) with
    | none => simp
    | some host_name => cases memcpy host_name colon [0] <;> simp

/-- The port before it is cut to 16 bits. -/
def portOf (text : List Byte) : Int :=
  if 58 ∈ text ∧ atoi (portText text) ≠ 0 then atoi (portText text) else httpPort

theorem split_at_colon {colon : Nat} (found : search [58] text = some colon) :
    colon < text.length ∧ nameOf text = text.take colon ∧ portText text = text.drop (colon+1) := by
  obtain ⟨here,first⟩ := search_singleton.mp found
  obtain ⟨inside,is⟩ := List.getElem?_eq_some_iff.mp here
  have before : ∀ c ∈ text.take colon, decide (c ≠ 58) = true := by
    intro c member
    obtain ⟨j,below,rfl⟩ := List.getElem_of_mem member
    have earlier : j < colon := by
      rw [List.length_take] at below
      omega
    rw [List.getElem_take,decide_eq_true_iff]
    intro same
    exact first j earlier (List.getElem?_eq_some_iff.mpr ⟨by omega,same⟩)
  have split : text = text.take colon ++ 58 :: text.drop (colon+1) := by
    rw [← is,List.getElem_cons_drop,List.take_append_drop]
  refine ⟨inside,?_,?_⟩
  · rw [nameOf]
    conv_lhs => rw [split]
    rw [List.takeWhile_append_of_pos before]
    simp
  · rw [portText]
    conv_lhs => rw [split]
    rw [List.dropWhile_append_of_pos before]
    simp

theorem no_colon (none : search [58] text = none) : 58 ∉ text ∧ nameOf text = text ∧ portText text = [] := by
  have absent : 58 ∉ text := by
    intro member
    obtain ⟨front,behind,split⟩ := List.append_of_mem member
    obtain ⟨i,found⟩ := search_of_inside (⟨front,behind,by rw [split]; simp⟩ : [58] <:+: text)
    cases none.symm.trans found
  have all : ∀ c ∈ text, decide (c ≠ 58) = true := fun c member => by
    rw [decide_eq_true_iff]
    intro same
    exact absent (same ▸ member)
  refine ⟨absent,?_,?_⟩
  · rw [nameOf,List.takeWhile_eq_self_iff.mpr all]
  · rw [portText,List.dropWhile_eq_nil_iff.mpr all]
    rfl

/-- The name is copied into the array and ends there, and the port is what `atoi`
    makes of the text behind the colon. -/
theorem splitHost_text (noNul : 0 ∉ text) (fits : text.length < hValSize) :
    ∃ host_name, splitHost (text ++ 0 :: rest) = some (host_name,portOf text) ∧ host_name.length = hValSize ∧
      0 ∈ host_name ∧ cstring host_name 0 = nameOf text := by
  have noNul_name : 0 ∉ nameOf text := fun member => noNul ((List.takeWhile_prefix _).subset member)
  have short : (nameOf text).length < hValSize := Nat.lt_of_le_of_lt (List.takeWhile_prefix _).length_le fits
  -- The array holds the name and its NUL in both cases.
  have holds : ∀ {host_name}, host_name = nameOf text ++ 0 :: (array hValSize).drop ((nameOf text).length+1) →
      host_name.length = hValSize ∧ 0 ∈ host_name ∧ cstring host_name 0 = nameOf text := by
    rintro _ rfl
    refine ⟨?_,by simp,cstring_text noNul_name (Nat.zero_le _)⟩
    simp only [List.length_append,List.length_cons,List.length_drop,array_length]
    omega
  have found : strchr (text ++ 0 :: rest) 0 58 = (search [58] text).map (0 + ·) := by
    rw [strchr,strstr_text noNul (Nat.zero_le _),List.drop_zero]
  rw [splitHost,found]
  refine ⟨_,?_,holds rfl⟩
  cases at_colon : search [58] text with
  | none =>
    obtain ⟨absent,name,_⟩ := no_colon at_colon
    have string : (cstring (text ++ 0 :: rest) 0).take hValSize = nameOf text := by
      rw [cstring_text noNul (Nat.zero_le _),List.drop_zero,name,List.take_of_length_le (Nat.le_of_lt fits)]
    obtain ⟨stored,copied,ended⟩ := Option.bind_eq_some_iff.mp (memcpy_array short)
    simp [string,copied,ended,portOf,absent]
  | some colon =>
    obtain ⟨inside,name,port⟩ := split_at_colon at_colon
    have length : (nameOf text).length = colon := by
      rw [name,List.length_take]
      omega
    have first : slice (text ++ 0 :: rest) 0 colon = nameOf text := by
      rw [slice_text (by omega),slice,List.drop_zero,name]
    have behind : cstring (text ++ 0 :: rest) (colon+1) = portText text := by
      rw [cstring_text noNul (by omega),port]
    have member : 58 ∈ text := List.mem_of_getElem? (search_singleton.mp at_colon).1
    have at_port : portOf text = if atoi (portText text) = 0 then httpPort else atoi (portText text) := by
      simp [portOf,member]
    have room : (nameOf text).length < (array hValSize).length := by rwa [array_length]
    obtain ⟨stored,copied,ended⟩ := Option.bind_eq_some_iff.mp (memcpy_string room)
    rw [length] at ended
    simp [first,behind,copied,ended,at_port,length]

/-! ### The number behind the colon -/

theorem decimal_eq {digits : List Byte} (all : Digits digits) : decimal digits = valueOf digits := by
  rw [decimal,List.takeWhile_eq_self_iff.mpr all,valueOf,Nat.ofDigits_eq_foldr,List.foldr_map,List.foldr_reverse]
  simp only [Nat.cast_id,Nat.add_comm]

theorem isDigit_iff {c : Byte} : isDigit c = true ↔ 48 ≤ c.toNat ∧ c.toNat ≤ 57 := by
  simp [isDigit,UInt8.le_iff_toNat_le]

/-- The conversions of a numeral: to `long`, whose largest value stands for all that
    are too large, and then to `int`. -/
theorem atoi_digits {digits : List Byte} (all : Digits digits) :
    atoi digits = Int.bmod (min (2^63-1) (valueOf digits)) (2^32) := by
  have skipped : digits.dropWhile isSpace = digits := by
    cases digits with
    | nil => rfl
    | cons c rest =>
      obtain ⟨low,high⟩ := isDigit_iff.mp (all c List.mem_cons_self)
      have solid : isSpace c = false := by
        rw [isSpace,decide_eq_false_iff_not,← UInt8.toNat_inj,UInt8.le_iff_toNat_le,UInt8.le_iff_toNat_le,
          not_or,not_and]
        show ¬ c.toNat = 32 ∧ (9 ≤ c.toNat → ¬ c.toNat ≤ 13)
        omega
      rw [List.dropWhile_cons_of_neg (by simp [solid])]
  have clamped : max (-2^63) (min (2^63-1) (valueOf digits : Int)) = min (2^63-1) (valueOf digits : Int) := by
    omega
  rw [atoi,skipped,← clamped,← decimal_eq all]
  split
  · exact absurd (all 45 List.mem_cons_self) (by decide)
  · exact absurd (all 43 List.mem_cons_self) (by decide)
  · rfl

/-- A number that comes through both conversions as it should: a port, or a number
    that is cut to 0 or to `HTTP_PORT`. -/
def Fits (k : Nat) : Prop := k ≤ 65535 ∨ k < 2^63 ∧ (k % 2^32 = 0 ∨ k % 2^16 = 80)

theorem port_of_number (k : Nat) :
    (((if Int.bmod (min (2^63-1) k) (2^32) ≠ 0 then Int.bmod (min (2^63-1) k) (2^32) else httpPort) % 65536).toNat =
      if 1 ≤ k ∧ k ≤ 65535 then k else 80) ↔ Fits k := by
  have same : Int.bmod (min (2^63-1) k) (2^32) % (2^32 : Nat) = min (2^63-1) (k : Int) % (2^32 : Nat) :=
    Int.bmod_emod ..
  have low : -((2^32 : Nat) : Int) / 2 ≤ Int.bmod (min (2^63-1) k) (2^32) := Int.le_bmod (by decide)
  have high : Int.bmod (min (2^63-1) k) (2^32) < ((2^32 : Nat) + 1) / 2 := Int.bmod_lt (by decide)
  generalize Int.bmod (min (2^63-1) k) (2^32) = v at same low high ⊢
  unfold Fits httpPort
  split <;> split <;> omega

/-! ### The host as it is written -/

/-- The name is asked for as it is written, and when it is found, the port is stored
    as it is written. -/
def AsWritten (getaddrinfo : List Byte → Option Nat) (text rest : List Byte) : Prop :=
  (∃ host_name port, splitHost (text ++ 0 :: rest) = some (host_name,port) ∧ host_name.length = hValSize ∧
      0 ∈ host_name ∧ cstring host_name 0 = nameOf text) ∧
    ∃ port, resolveHost getaddrinfo (text ++ 0 :: rest) =
        some ((getaddrinfo (nameOf text)).map fun addr => ⟨addr,port⟩) ∧
      ((getaddrinfo (nameOf text)).isSome = true → PortAsWritten text port)

/-- A numeral behind the colon stands for a number that comes through. -/
def NumberFits (text : List Byte) : Prop :=
  portText text ≠ [] → Digits (portText text) → Fits (valueOf (portText text))

theorem port_as_written_iff (text : List Byte) :
    PortAsWritten text (portOf text % 65536).toNat ↔ NumberFits text := by
  unfold PortAsWritten NumberFits
  by_cases nothing : portText text = []
  · have default : portOf text = httpPort := by
      rw [portOf,nothing,if_neg]
      intro both
      exact both.2 (by decide)
    rw [if_pos nothing,default]
    exact iff_of_true (by decide) fun some => absurd nothing some
  rw [if_neg nothing]
  by_cases all : Digits (portText text)
  · have colon : 58 ∈ text := by
      by_contra absent
      apply nothing
      cases at_colon : search [58] text with
      | none => exact (no_colon at_colon).2.2
      | some k => exact absurd (List.mem_of_getElem? (search_singleton.mp at_colon).1) absent
    have number := port_of_number (valueOf (portText text))
    rw [← atoi_digits all] at number
    rw [if_pos all,portOf,forall_prop_of_true nothing,forall_prop_of_true all,← number]
    simp only [colon,true_and]
    split
    · exact .rfl
    · exact @Int.ofNat_inj _ 80
  · rw [if_neg all]
    exact iff_of_true trivial fun _ digits => absurd digits all

theorem resolveHost_text (getaddrinfo : List Byte → Option Nat) (noNul : 0 ∉ text) (fits : text.length < hValSize)
    (rest : List Byte) : resolveHost getaddrinfo (text ++ 0 :: rest) =
      some ((getaddrinfo (nameOf text)).map fun addr => ⟨addr,(portOf text % 65536).toNat⟩) := by
  obtain ⟨host_name,split,_,_,name⟩ := @splitHost_text text rest noNul fits
  rw [resolveHost_eq,split,Option.map_some,name]

/-- When the name is found, only a number that comes through is stored as it is
    written. -/
theorem numberFits_of_asWritten {getaddrinfo : List Byte → Option Nat} (noNul : 0 ∉ text)
    (fits : text.length < hValSize) (holds : AsWritten getaddrinfo text rest)
    (found : (getaddrinfo (nameOf text)).isSome = true) : NumberFits text := by
  obtain ⟨_,port,resolved,as_written⟩ := holds
  obtain ⟨addr,is⟩ := Option.isSome_iff_exists.mp found
  rw [resolveHost_text getaddrinfo noNul fits,is] at resolved
  obtain rfl : (portOf text % 65536).toNat = port := by simpa using resolved
  exact (port_as_written_iff text).mp (as_written found)

/-- `resolve_host` takes the host as it is written exactly when the number behind
    the colon, if there is one, comes through, or the name is not found. -/
theorem as_written_iff (getaddrinfo : List Byte → Option Nat) (noNul : 0 ∉ text) (fits : text.length < hValSize)
    (rest : List Byte) :
    AsWritten getaddrinfo text rest ↔ ((getaddrinfo (nameOf text)).isSome = true → NumberFits text) := by
  constructor
  · exact numberFits_of_asWritten noNul fits
  · intro number
    obtain ⟨host_name,split,size,ended,name⟩ := @splitHost_text text rest noNul fits
    refine ⟨⟨host_name,_,split,size,ended,name⟩,_,resolveHost_text getaddrinfo noNul fits rest,fun found => ?_⟩
    exact (port_as_written_iff text).mpr (number found)

/-- 65536 is cut to 0, and 70000 to 4464. -/
theorem not_as_written :
    (resolveHost (fun _ => some 1) (ascii "a:65536" ++ [0]) = some (some ⟨1,0⟩) ∧
      ¬ AsWritten (fun _ => some 1) (ascii "a:65536") []) ∧
    resolveHost (fun _ => some 1) (ascii "a:70000" ++ [0]) = some (some ⟨1,4464⟩) ∧
      ¬ AsWritten (fun _ => some 1) (ascii "a:70000") [] := by
  have wrong : ∀ {text : List Byte}, 0 ∉ text → text.length < hValSize → ¬ NumberFits text →
      ¬ AsWritten (fun _ => some 1) text [] :=
    fun noNul fits cut holds => cut (numberFits_of_asWritten noNul fits holds rfl)
  refine ⟨⟨?_,wrong (by decide) (by decide) fun fits => ?_⟩,?_,wrong (by decide) (by decide) fun fits => ?_⟩
  · exact (resolveHost_text _ (by decide) (by decide) []).trans (by decide)
  · exact absurd (fits (by decide) (by decide)) (by unfold Fits; decide)
  · exact (resolveHost_text _ (by decide) (by decide) []).trans (by decide)
  · exact absurd (fits (by decide) (by decide)) (by unfold Fits; decide)

theorem as_written_iff_hostPort : AsWritten (fun _ => some 1) (ascii "a.b:8080") [] :=
  (as_written_iff _ (by decide) (by decide) []).mpr fun _ _ _ => .inl (by decide)

end Os5Sem.HostResolution
