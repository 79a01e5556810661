import Mathlib.Data.Fintype.EquivFin
import Os5Sem.ReapRest

/-!
The way of the queue to rest. Every step that a call of `reap_enqueue` takes with the
lock at hand and memory for its node, and every step of the reaper that has something
to do, leaves less work (`enqueue_descends`, `reaper_descends`).
-/
namespace Os5Sem.ReapProgress
open Os5Sem.Chains Os5Sem.ReapQueue Os5Sem.ReapInvariant Os5Sem.ReapRest

variable {Proc : Type} {σ σ' : State Proc} {queue batch : List Nat} {p : Proc}

/-- The queue, the batch and the nodes of a state. -/
structure Held (σ : State Proc) (queue batch : List Nat) : Prop where
  inv : Invariant σ queue batch
  kept : Kept σ queue batch

/-! ### Work -/

/-- How far a call is from its return. A node that is linked is work for the reaper. -/
def callWork : EnqueuePc → Nat
  | .idle => 0
  | .malloc _ => 50
  | .fill _ _ => 49
  | .spinLock _ => 48
  | .loadTail _ => 47
  | .loadOldTail _ => 46
  | .storeHead _ | .link _ _ => 45
  | .storeFirstTail _ | .storeTail _ => 4
  | .spinUnlock => 3
  | .fetchAdd => 2
  | .futexWake => 1

/-- How far the reaper is from its next pass. When it has come for nothing, it goes
    through the locked section before it is back. -/
def passWork (queue : List Nat) : ReaperPc → Nat
  | .asleep | .futexWait => 7
  | .loadCount => 6
  | .spinLock => if queue = [] then 9 else 5
  | .loadHead => if queue = [] then 8 else 4
  | .spinUnlock none => 7
  | .storeHead _ => 3
  | .storeTail _ => 18
  | .spinUnlock (some _) => 17
  | .readNext _ _ => 16
  | .readThread _ _ _ => 15
  | .visit _ _ _ _ => 14
  | .freeNode _ _ _ => 13
  | .fetchSub _ => 12

def reaperWork (queue batch : List Nat) (pc : ReaperPc) : Nat :=
  40*queue.length + 20*batch.length + passWork queue pc

theorem passWork_append (queue : List Nat) (x : Nat) (pc : ReaperPc) :
    passWork (queue ++ [x]) pc ≤ passWork queue pc := by
  cases pc with
  | spinLock => by_cases none : queue = [] <;> simp [passWork,none]
  | loadHead => by_cases none : queue = [] <;> simp [passWork,none]
  | spinUnlock list => cases list <;> exact Nat.le_refl _
  | _ => exact Nat.le_refl _

theorem reaperWork_append (queue batch : List Nat) (x : Nat) (pc : ReaperPc) :
    reaperWork (queue ++ [x]) batch pc ≤ reaperWork queue batch pc + 40 := by
  have less := passWork_append queue x pc
  simp only [reaperWork,List.length_append,List.length_singleton]
  omega

theorem reaperWork_wake (queue batch : List Nat) (σ : State Proc) :
    reaperWork queue batch σ.futexWake.reaper ≤ reaperWork queue batch σ.reaper := by
  rcases futexWake_cases σ with same | ⟨asleep,woken⟩
  · rw [same]
  · rw [woken,asleep]
    simp [reaperWork,passWork,State.reaperAt]

/-! ### The reaper -/

theorem reaper_enabled (σ : State Proc) (env : Env) : ∃ σ', reaperMain σ env = some σ' := by
  cases here : σ.reaper with
  | spinUnlock list => cases list <;> exact ⟨_,by simp only [reaperMain,here]; rfl⟩
  | _ =>
    simp only [reaperMain,here]
    try split
    all_goals exact ⟨_,rfl⟩

/-- What the reaper leaves is less than what there was to do, when it has the lock at
    hand and does not wait for something to do. -/
theorem reaper_descends (held : Held σ queue batch) {env : Env} (done : reaperMain σ env = some σ')
    (awake : σ.reaper ≠ .asleep)
    (waits : σ.reaper = .loadCount ∨ σ.reaper = .futexWait → σ.count ≠ 0 ∧ queue ≠ [])
    (free : σ.lock = false ∨ ReaperLocks σ.reaper) (strong : env.spurious = false) :
    reaperWork (taking σ.reaper queue batch).1 (taking σ.reaper queue batch).2 σ'.reaper <
      reaperWork queue batch σ.reaper := by
  have fits := held.inv.shape.reaper
  have at_pc := held.inv.shape.batch
  have chain := held.inv.shape.chain
  cases here : σ.reaper with
  | asleep => exact absurd here awake
  | loadCount =>
    obtain ⟨counted,filled⟩ := waits (.inl here)
    simp only [reaperMain,here,counted] at done
    cases done
    simp [taking,reaperWork,passWork,State.reaperAt,filled]
  | futexWait =>
    obtain ⟨counted,_⟩ := waits (.inr here)
    simp only [reaperMain,here,counted] at done
    cases done
    simp [taking,reaperWork,passWork,State.reaperAt]
  | spinLock =>
    have isFree : σ.lock = false := free.resolve_right fun locks => by rw [here] at locks; exact locks
    simp only [reaperMain,here,isFree,strong] at done
    cases done
    by_cases empty : queue = [] <;> simp [taking,reaperWork,passWork,State.reaperAt,empty]
  | loadHead =>
    simp only [reaperMain,here] at done
    split at done <;> rename_i head <;> cases done <;> rw [head] at chain
    · have empty : queue = [] := by
        cases queue with
        | nil => rfl
        | cons z rest => cases chain.1
      simp [taking,reaperWork,passWork,State.reaperAt,empty]
    · have filled : queue ≠ [] := by
        rintro rfl
        cases chain
      simp [taking,reaperWork,passWork,State.reaperAt,filled]
  | storeHead y =>
    rw [here] at fits at_pc
    have head : σ.head = some y := fits
    have empty : batch = [] := at_pc
    have filled : 0 < queue.length := by
      refine List.length_pos_of_ne_nil fun nothing => ?_
      rw [nothing,head] at chain
      cases chain
    simp only [reaperMain,here] at done
    cases done
    simp only [taking,reaperWork,passWork,State.reaperAt,empty,List.length_nil]
    omega
  | freeNode y next n =>
    rw [here] at at_pc
    obtain ⟨rest,rfl,_⟩ := at_pc
    simp only [reaperMain,here] at done
    split at done <;> cases done <;>
      simp only [taking,reaperWork,passWork,State.reaperAt,List.length_cons,List.tail_cons] <;> omega
  | spinUnlock list =>
    cases list <;> simp only [reaperMain,here] at done <;> cases done <;>
      simp [taking,reaperWork,passWork,State.reaperAt]
  | fetchSub n =>
    simp only [reaperMain,here] at done
    cases done
    simp [taking,reaperWork,passWork,State.reaperAt]
  | _ =>
    simp only [reaperMain,here] at done
    cases done
    simp [taking,reaperWork,passWork,State.reaperAt]

/-! ### Calls -/

variable [DecidableEq Proc]

theorem Held.step {a : Act Proc} (held : Held σ queue batch) (done : step σ a = some σ') :
    Held σ' (moving σ queue batch a).1 (moving σ queue batch a).2 := by
  refine ⟨held.inv.step done,?_⟩
  cases a with
  | enter p t =>
    simp only [ReapQueue.step] at done
    split at done <;> cases done
    rename_i idle
    intro x live
    refine (held.kept x live).imp_right ?_
    rintro ⟨q,owns⟩
    have other : q ≠ p := by
      rintro rfl
      rw [idle] at owns
      cases owns
    refine ⟨q,?_⟩
    simpa [State.enter,State.goto,other] using owns
  | enqueue p env => exact held.kept.enqueue done
  | reap env => exact held.kept.reap held.inv.shape done

/-- While finitely many calls are in progress, there is memory for a node. -/
theorem exists_fresh (held : Held σ queue batch) {active : Finset Proc}
    (others : ∀ p, p ∉ active → σ.enqueuer p = .idle) :
    ∃ x, σ.live x = false := by
  obtain ⟨x,out⟩ := Infinite.exists_notMem_finset
    ((batch ++ queue).toFinset ∪ active.image fun p => (owned (σ.enqueuer p)).getD 0)
  simp only [Finset.mem_union,List.mem_toFinset,Finset.mem_image,not_or,not_exists,not_and] at out
  refine ⟨x,Bool.eq_false_iff.mpr fun live => ?_⟩
  rcases held.kept x live with member | ⟨p,owns⟩
  · exact out.1 member
  · have inside : p ∈ active := by
      by_contra outside
      rw [others p outside] at owns
      cases owns
    exact out.2 p inside (by simp [owns])

/-- A call goes on when it has the lock at hand and memory for its node. -/
theorem enqueue_enabled (held : Held σ queue batch) (busy : σ.enqueuer p ≠ .idle) {x : Nat} (fresh : σ.live x = false) :
    ∃ σ', reapEnqueue σ p ⟨some x,false⟩ = some σ' := by
  have fits := held.inv.shape.enqueuers p
  cases here : σ.enqueuer p with
  | idle => exact absurd here busy
  | malloc t => exact ⟨_,by simp only [reapEnqueue,here,fresh]; rfl⟩
  | spinLock y =>
    simp only [reapEnqueue,here]
    split <;> exact ⟨_,rfl⟩
  | loadTail y =>
    simp only [reapEnqueue,here]
    split <;> exact ⟨_,rfl⟩
  | loadOldTail y =>
    rw [here] at fits
    simp only [reapEnqueue,here]
    split
    · rename_i tail
      rw [fits.1] at tail
      exact absurd (List.getLast?_eq_none_iff.mp tail) fits.2
    · exact ⟨_,rfl⟩
  | fetchAdd =>
    simp only [reapEnqueue,here]
    split <;> exact ⟨_,rfl⟩
  | _ => exact ⟨_,by simp only [reapEnqueue,here]; rfl⟩

/-- What a call leaves is less than what there was to do for it and the reaper. -/
theorem enqueue_descends {env : Env} (done : reapEnqueue σ p env = some σ') (memory : env.address ≠ none)
    (strong : env.spurious = false) (free : σ.lock = false ∨ Locks (σ.enqueuer p)) :
    ∃ pc, σ'.enqueuer = Function.update σ.enqueuer p pc ∧
      callWork pc + reaperWork (linking (σ.enqueuer p) queue) batch σ'.reaper <
        callWork (σ.enqueuer p) + reaperWork queue batch σ.reaper := by
  cases here : σ.enqueuer p with
  | idle => simp [reapEnqueue,here] at done
  | malloc t =>
    simp only [reapEnqueue,here] at done
    split at done
    · exact absurd ‹_› memory
    · split at done <;> cases done
      exact ⟨_,rfl,by simp [linking,callWork,State.goto]⟩
  | spinLock y =>
    have isFree : σ.lock = false := free.resolve_right fun locks => by rw [here] at locks; exact locks
    simp only [reapEnqueue,here,isFree,strong] at done
    cases done
    exact ⟨_,rfl,by simp [linking,callWork,State.goto]⟩
  | storeHead y =>
    have more := reaperWork_append queue batch y σ.reaper
    simp only [reapEnqueue,here] at done
    cases done
    refine ⟨_,rfl,?_⟩
    simp only [linking,callWork,State.goto]
    omega
  | link y z =>
    have more := reaperWork_append queue batch y σ.reaper
    simp only [reapEnqueue,here] at done
    cases done
    refine ⟨_,rfl,?_⟩
    simp only [linking,callWork,State.goto,State.setNext,State.setNode]
    omega
  | futexWake =>
    have less := reaperWork_wake queue batch σ
    simp only [reapEnqueue,here] at done
    cases done
    refine ⟨.idle,?_,?_⟩
    · rcases futexWake_cases σ with same | ⟨_,woken⟩
      · rw [same]
        rfl
      · rw [woken]
        rfl
    · simp only [linking,callWork,State.goto]
      omega
  | _ =>
    simp only [reapEnqueue,here] at done
    try split at done
    all_goals cases done
    all_goals exact ⟨_,rfl,by simp [linking,callWork,State.goto,State.setNode]⟩

end Os5Sem.ReapProgress
