import Os5Sem.ReaperCreation
import Mathlib.Data.List.Nodup

/-!
The stacks that calls of `start_reaper` map. However the calls race and fail, each
stack is unmapped once, with the size that it was mapped with, or given to a reaper
(`stacks_accounted`).
-/
namespace Os5Sem.ReaperStacks
open Os5Sem.StartReaper Os5Sem.ReaperCreation
open List

variable {Proc : Type} {σ σ' : State Proc}

/-- A mapping: its address and its size. -/
abbrev Mapping := Nat × Nat

/-- The stack that a step maps. -/
def mapping (σ : State Proc) : Act Proc → List Mapping
  | .go p env =>
    match σ.caller p,env.outcome with
    | .mmap total,.ok map => [(map,total)]
    | _,_ => []
  | .call _ => []

/-- The stack that a step gives to the reaper that it creates. -/
def giving (σ : State Proc) : Act Proc → List Mapping
  | .go p env =>
    match σ.caller p,env.outcome with
    | .clone map total,.ok _ => [(map,total)]
    | _,_ => []
  | .call _ => []

/-- The stack that a call has mapped, and neither unmapped nor given to a reaper. -/
def holding : Pc → Option Mapping
  | .mprotect map total | .clone map total | .cloneFailed map total _ | .munmap _ map total _ => some (map,total)
  | _ => none

/-- The size that a call has asked for. -/
def asking : Pc → Option Nat
  | .mmap total | .mprotect _ total | .clone _ total | .cloneFailed _ total _ | .munmap _ _ total _ => some total
  | _ => none

/-- What a step of a call does to the stacks. -/
inductive Moves (σ σ' : State Proc) (p : Proc) (a : Act Proc) : Prop
  | stays (same : holding (σ'.caller p) = holding (σ.caller p)) (maps : mapping σ a = []) (gives : giving σ a = [])
      (unmapped : σ'.unmapped = σ.unmapped)
  | maps (m : Mapping) (asks : asking (σ.caller p) = some m.2) (before : holding (σ.caller p) = none)
      (after : holding (σ'.caller p) = some m) (maps : mapping σ a = [m]) (gives : giving σ a = [])
      (unmapped : σ'.unmapped = σ.unmapped)
  | gives (m : Mapping) (before : holding (σ.caller p) = some m) (after : holding (σ'.caller p) = none)
      (maps : mapping σ a = []) (gives : giving σ a = [m]) (unmapped : σ'.unmapped = σ.unmapped)
  | unmaps (m : Mapping) (before : holding (σ.caller p) = some m) (after : holding (σ'.caller p) = none)
      (maps : mapping σ a = []) (gives : giving σ a = []) (unmapped : σ'.unmapped = σ.unmapped ++ [m])
  -- `__reaper_cleanup_on_error` does not unmap a null pointer or nothing.
  | skips (m : Mapping) (before : holding (σ.caller p) = some m) (null : ¬ (m.1 ≠ 0 ∧ m.2 ≠ 0))

/-- The stacks that have been mapped: unmapped, given to a reaper, or held by a call. -/
structure Accounted (σ : State Proc) (mapped given : List Mapping) (held : List (Proc × Mapping)) : Prop where
  callers : (held.map Prod.fst).Nodup
  exact : ∀ p m, (p,m) ∈ held ↔ holding (σ.caller p) = some m
  total : mapped.Perm (σ.unmapped ++ given ++ held.map Prod.snd)
  sized : ∀ p total, asking (σ.caller p) = some total → 0 < total
  real : ∀ m ∈ mapped, m.1 ≠ 0 ∧ m.2 ≠ 0
  reapers : given.length = σ.reapers.length

theorem start_accounted : Accounted (start Proc) [] [] [] where
  callers := .nil
  exact _ _ := by simp [start,holding]
  total := .nil
  sized _ _ asks := by cases asks
  real _ member := by cases member
  reapers := rfl

variable [DecidableEq Proc]

theorem startReaper_moves {p : Proc} {env : Env} (done : startReaper σ p env = some σ') :
    Moves σ σ' p (.go p env) ∧ ∀ total, asking (σ'.caller p) = some total → 0 < total ∨
      asking (σ.caller p) = some total := by
  cases here : σ.caller p with
  | idle => simp [startReaper,here] at done
  | compareExchange =>
    simp only [startReaper,here] at done
    split at done <;> cases done <;>
      exact ⟨.stays (by simp [here,holding]) (by simp [mapping,here]) (by simp [giving,here]) rfl,by simp [asking]⟩
  | sysconf =>
    simp only [startReaper,here] at done
    cases done
    refine ⟨.stays (by simp [here,holding]) (by simp [mapping,here]) (by simp [giving,here]) rfl,
      fun total is => .inl ?_⟩
    simp only [State.goto_self,asking,Option.some.injEq] at is
    rw [← is,reaperStackSize]
    omega
  | mmap total =>
    simp only [startReaper,here] at done
    split at done <;> rename_i result outcome <;> cases done
    · exact ⟨.stays (by simp [here,holding]) (by simp [mapping,here,outcome]) (by simp [giving,here]) rfl,
        by simp [asking]⟩
    · exact ⟨.maps (result,total) (by rw [here]; rfl) (by rw [here]; rfl) (by simp [holding])
        (by simp [mapping,here,outcome]) (by simp [giving,here]) rfl,by simp [asking]⟩
  | mprotect map total =>
    simp only [startReaper,here] at done
    split at done <;> cases done <;>
      exact ⟨.stays (by simp [here,holding]) (by simp [mapping,here]) (by simp [giving,here]) rfl,by simp [asking]⟩
  | clone map total =>
    simp only [startReaper,here] at done
    split at done <;> rename_i result outcome <;> cases done
    · exact ⟨.stays (by simp [here,holding]) (by simp [mapping,here]) (by simp [giving,here,outcome]) rfl,
        by simp [asking]⟩
    · exact ⟨.gives (map,total) (by rw [here]; rfl) (by simp [holding]) (by simp [mapping,here])
        (by simp [giving,here,outcome]) rfl,by simp [asking]⟩
  | cloneFailed map total saved =>
    simp only [startReaper,here] at done
    cases done
    exact ⟨.stays (by simp [here,holding]) (by simp [mapping,here]) (by simp [giving,here]) rfl,by simp [asking]⟩
  | munmap site map total saved =>
    simp only [startReaper,here] at done
    split at done <;> rename_i null <;> cases done
    · exact ⟨.unmaps (map,total) (by rw [here]; rfl) (by simp [holding]) (by simp [mapping,here])
        (by simp [giving,here])
        rfl,by simp [asking]⟩
    · exact ⟨.skips (map,total) (by rw [here]; rfl) null,by simp [asking]⟩
  | _ =>
    simp only [startReaper,here] at done
    cases done
    exact ⟨.stays (by simp [here,holding]) (by simp [mapping,here]) (by simp [giving,here]) rfl,by simp [asking]⟩


/-- A reaper is created by the step that gives it a stack. -/
theorem startReaper_reapers {p : Proc} {env : Env} (done : startReaper σ p env = some σ') :
    σ'.reapers.length = σ.reapers.length + (giving σ (.go p env)).length := by
  cases here : σ.caller p with
  | idle => simp [startReaper,here] at done
  | clone map total =>
    simp only [startReaper,here] at done
    split at done <;> rename_i result outcome <;> cases done
    · simp only [giving,here,outcome]
      rfl
    · simp only [giving,here,outcome]
      exact List.length_append
  | _ =>
    have gives : giving σ (.go p env) = [] := by simp [giving,here]
    simp only [startReaper,here] at done
    rw [gives]
    try split at done
    all_goals
      cases done
      rfl

/-- A call that unmaps its stack or gives it away holds it no more, and the others hold
    what they held. -/
theorem Accounted.released {mapped given : List Mapping} {held : List (Proc × Mapping)}
    (accounted : Accounted σ mapped given held) {p : Proc} {m : Mapping} (before : holding (σ.caller p) = some m)
    (after : holding (σ'.caller p) = none) (others : ∀ q, q ≠ p → σ'.caller q = σ.caller q) :
    ((held.erase (p,m)).map Prod.fst).Nodup ∧
      (∀ q n, (q,n) ∈ held.erase (p,m) ↔ holding (σ'.caller q) = some n) ∧
      held.map Prod.snd ~ m :: (held.erase (p,m)).map Prod.snd := by
  have member : (p,m) ∈ held := (accounted.exact p m).mpr before
  have distinct : held.Nodup := List.Nodup.of_map _ accounted.callers
  refine ⟨accounted.callers.sublist ((List.erase_sublist).map Prod.fst),fun q n => ?_,?_⟩
  · rw [distinct.mem_erase_iff,accounted.exact q n]
    by_cases isP : q = p
    · rw [isP,before,after]
      simp [eq_comm]
    · rw [others q isP]
      simp [isP]
  · exact (List.perm_cons_erase member).map Prod.snd

theorem accounted_step {a : Act Proc} {mapped given : List Mapping} {held : List (Proc × Mapping)}
    (accounted : Accounted σ mapped given held) (nonnull : ∀ m ∈ mapping σ a, m.1 ≠ 0) (done : step σ a = some σ') :
    ∃ held', Accounted σ' (mapped ++ mapping σ a) (given ++ giving σ a) held' := by
  cases a with
  | call p =>
    simp only [step] at done
    split at done <;> cases done
    rename_i idle
    have same : ∀ q, holding ((σ.goto p .compareExchange).caller q) = holding (σ.caller q) ∧
        asking ((σ.goto p .compareExchange).caller q) = asking (σ.caller q) := by
      intro q
      by_cases isP : q = p
      · rw [isP,State.goto_self,idle]
        exact ⟨rfl,rfl⟩
      · rw [State.goto_other isP]
        exact ⟨rfl,rfl⟩
    refine ⟨held,accounted.callers,fun q m => ?_,?_,fun q total => ?_,?_,?_⟩
    · rw [(same q).1]
      exact accounted.exact q m
    · rw [show mapping σ (.call p) = [] from rfl,show giving σ (.call p) = [] from rfl,List.append_nil,List.append_nil]
      exact accounted.total
    · rw [(same q).2]
      exact accounted.sized q total
    · rw [show mapping σ (.call p) = [] from rfl,List.append_nil]
      exact accounted.real
    · rw [show giving σ (.call p) = [] from rfl,List.append_nil]
      exact accounted.reapers
  | go p env =>
    have others : ∀ q, q ≠ p → σ'.caller q = σ.caller q := fun q other => startReaper_others done other
    obtain ⟨moves,asks⟩ := startReaper_moves done
    have reapers : (given ++ giving σ (.go p env)).length = σ'.reapers.length := by
      rw [List.length_append,accounted.reapers,startReaper_reapers done]
    have sized : ∀ q total, asking (σ'.caller q) = some total → 0 < total := by
      intro q total is
      by_cases isP : q = p
      · subst isP
        exact (asks total is).elim id (accounted.sized q total)
      · rw [others q isP] at is
        exact accounted.sized q total is
    cases moves with
    | stays same maps gives unmapped =>
      rw [gives,List.append_nil] at reapers
      rw [maps,gives,List.append_nil,List.append_nil]
      refine ⟨held,accounted.callers,fun q m => ?_,unmapped ▸ accounted.total,sized,accounted.real,reapers⟩
      by_cases isP : q = p
      · rw [isP,same]
        exact accounted.exact p m
      · rw [others q isP]
        exact accounted.exact q m
    | maps m isAsked before after maps gives unmapped =>
      rw [maps] at nonnull
      rw [gives,List.append_nil] at reapers
      rw [maps,gives,List.append_nil]
      have outside : ∀ n, (p,n) ∉ held := fun n member => by simpa [before] using (accounted.exact p n).mp member
      refine ⟨(p,m) :: held,?_,fun q n => ?_,?_,sized,?_,reapers⟩
      · rw [List.map_cons,List.nodup_cons]
        refine ⟨fun member => ?_,accounted.callers⟩
        obtain ⟨⟨q,n⟩,member,isP⟩ := List.mem_map.mp member
        exact outside n (by rwa [show q = p from isP] at member)
      · by_cases isP : q = p
        · rw [isP,after,List.mem_cons,or_iff_left (outside n)]
          simp [eq_comm]
        · rw [List.mem_cons,or_iff_right (by simp [isP]),others q isP]
          exact accounted.exact q n
      · rw [unmapped,List.map_cons]
        calc
          mapped ++ [m] ~ (σ.unmapped ++ given ++ held.map Prod.snd) ++ [m] := accounted.total.append_right _
          _ ~ m :: (σ.unmapped ++ given ++ held.map Prod.snd) := List.perm_append_singleton _ _
          _ ~ σ.unmapped ++ given ++ m :: held.map Prod.snd := List.perm_middle.symm
      · intro n member
        rcases List.mem_append.mp member with old | new
        · exact accounted.real n old
        · rw [List.mem_singleton.mp new]
          exact ⟨nonnull m List.mem_cons_self,Nat.ne_of_gt (accounted.sized p m.2 isAsked)⟩
    | gives m before after maps gives unmapped =>
      rw [gives] at reapers
      rw [maps,gives,List.append_nil]
      obtain ⟨callers,exact,split⟩ := accounted.released before after others
      refine ⟨held.erase (p,m),callers,exact,?_,sized,accounted.real,reapers⟩
      rw [unmapped]
      calc
        mapped ~ σ.unmapped ++ given ++ held.map Prod.snd := accounted.total
        _ ~ σ.unmapped ++ given ++ m :: (held.erase (p,m)).map Prod.snd := split.append_left _
        _ = σ.unmapped ++ (given ++ [m]) ++ (held.erase (p,m)).map Prod.snd := by simp
    | unmaps m before after maps gives unmapped =>
      rw [gives,List.append_nil] at reapers
      rw [maps,gives,List.append_nil,List.append_nil]
      obtain ⟨callers,exact,split⟩ := accounted.released before after others
      refine ⟨held.erase (p,m),callers,exact,?_,sized,accounted.real,reapers⟩
      rw [unmapped]
      calc
        mapped ~ σ.unmapped ++ (given ++ held.map Prod.snd) := by rw [← List.append_assoc]; exact accounted.total
        _ ~ σ.unmapped ++ (given ++ m :: (held.erase (p,m)).map Prod.snd) := (split.append_left _).append_left _
        _ ~ σ.unmapped ++ m :: (given ++ (held.erase (p,m)).map Prod.snd) := List.perm_middle.append_left _
        _ = σ.unmapped ++ [m] ++ given ++ (held.erase (p,m)).map Prod.snd := by simp
    | skips m before null =>
      have holds : (p,m) ∈ held := (accounted.exact p m).mpr before
      have member : m ∈ mapped := accounted.total.mem_iff.mpr (List.mem_append_right _ (List.mem_map_of_mem holds))
      exact absurd (accounted.real m member) null

/-- What the steps of a run tell, in order. -/
def recorded (tells : State Proc → Act Proc → List Mapping) : State Proc → List (Act Proc) → List Mapping
  | _,[] => []
  | σ,a :: rest =>
    match step σ a with
    | none => []
    | some next => tells σ a ++ recorded tells next rest

theorem recorded_cons {tells : State Proc → Act Proc → List Mapping} {a : Act Proc} {rest : List (Act Proc)}
    (done : step σ a = some σ') : recorded tells σ (a :: rest) = tells σ a ++ recorded tells σ' rest := by
  simp only [recorded,done]

theorem run_accounted {acts : List (Act Proc)} {mapped given : List Mapping} {held : List (Proc × Mapping)}
    (ran : Transition.run step σ acts = some σ') (nonnull : ∀ m ∈ recorded mapping σ acts, m.1 ≠ 0)
    (accounted : Accounted σ mapped given held) :
    ∃ held', Accounted σ' (mapped ++ recorded mapping σ acts) (given ++ recorded giving σ acts) held' := by
  induction acts generalizing σ mapped given held with
  | nil =>
    cases ran
    exact ⟨held,by simpa [recorded] using accounted⟩
  | cons a rest ih =>
    obtain ⟨next,done,ran⟩ := Transition.run_cons.mp ran
    rw [recorded_cons done] at nonnull ⊢
    rw [recorded_cons done,← List.append_assoc,← List.append_assoc]
    obtain ⟨held',now⟩ := accounted_step accounted (fun m member => nonnull m (List.mem_append_left _ member)) done
    exact ih ran (fun m member => nonnull m (List.mem_append_right _ member)) now

/-- When all calls have returned, every stack that they have mapped has been unmapped
    with its size or is the stack of one of the reapers, and each reaper has its own. The
    kernel never maps at the null address. -/
theorem stacks_accounted {acts : List (Act Proc)} (ran : Transition.run step (start Proc) acts = some σ)
    (nonnull : ∀ m ∈ recorded mapping (start Proc) acts, m.1 ≠ 0) (quiet : ∀ p, σ.caller p = .idle) :
    recorded mapping (start Proc) acts ~ σ.unmapped ++ recorded giving (start Proc) acts ∧
      (recorded giving (start Proc) acts).length = σ.reapers.length := by
  obtain ⟨held,accounted⟩ := run_accounted ran nonnull start_accounted
  rw [List.nil_append,List.nil_append] at accounted
  have nothing : held = [] := by
    refine List.eq_nil_iff_forall_not_mem.mpr ?_
    rintro ⟨p,m⟩ member
    have holds := (accounted.exact p m).mp member
    rw [quiet p] at holds
    cases holds
  have total := accounted.total
  rw [nothing,List.map_nil,List.append_nil] at total
  exact ⟨total,accounted.reapers⟩

/-- The call 0 fails at its guard page and the call 2 at its clone, while the call 1 has
    created the reaper. -/
def failing : List (Act Nat) :=
  let go (p : Nat) (outcome : Except Nat Nat) : Act Nat := .go p ⟨4096,outcome⟩
  let toGuard (p map : Nat) := .call p :: [go p (.ok 0),go p (.ok 0),go p (.ok map)]
  toGuard 0 100 ++ [go 0 (.error 12),go 0 (.ok 0),go 0 (.ok 0)] ++ toGuard 2 200 ++ [go 2 (.ok 0),go 2 (.error 11),
    go 2 (.ok 0)] ++
    toGuard 1 300 ++ [go 1 (.ok 0),go 2 (.ok 0),go 1 (.ok 71),go 2 (.ok 0)] ++ List.replicate 3 (go 1 (.ok 0))

theorem stacks_accounted_failing :
    recorded mapping (start Nat) failing ~ (after failing).unmapped ++ recorded giving (start Nat) failing ∧
      (recorded giving (start Nat) failing).length = (after failing).reapers.length := by
  refine stacks_accounted rfl (by decide) fun p => ?_
  rcases p with _ | _ | _ | p <;> rfl

end Os5Sem.ReaperStacks
