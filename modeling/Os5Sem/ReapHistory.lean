import Os5Sem.ReapCalls

/-!
The history of the reap queue: the batches that `reap_dequeue` has returned,
followed by the queue, are the threads in the order in which their enqueuers took
the lock (`queue_faithful`), and the reaper visits the batches in this order. It has
every thread that `reap_enqueue` was called for, once its call has taken the lock. A
batch is recorded with the memory at the point where it is returned, so that what
happens to its nodes afterwards can be told.
-/
namespace Os5Sem.ReapHistory
open Os5Sem.Chains Os5Sem.ReapQueue Os5Sem.ReapInvariant Os5Sem.ReapCalls
open Os5Sem.ReapSafety (negativeSchedule negativeAfter)
open List (Forall₂)

/-- What `reap_dequeue` returns: the first node, with the memory at that point. -/
structure Batch where
  head : Nat
  node : Nat → ReapNode

/-- The threads of some nodes. -/
def threads (node : Nat → ReapNode) (nodes : List Nat) : List Nat := nodes.map fun x => (node x).thread

/-- The threads of a batch, in its order. -/
def Holds (batch : Batch) (ts : List Nat) : Prop :=
  ∃ nodes, Chain (fun x => (batch.node x).next) (some batch.head) nodes ∧ ts = threads batch.node nodes

/-- The batch that a step returns from `reap_dequeue`. -/
def returning {Proc : Type} (σ : State Proc) : Act Proc → List Batch
  | .reap _ =>
    match σ.reaper with
    | .spinUnlock (some x) => [⟨x,σ.node⟩]
    | _ => []
  | _ => []

/-- The batches that `reap_dequeue` returns in a run. -/
def dequeued {Proc : Type} [DecidableEq Proc] : State Proc → List (Act Proc) → List Batch
  | _, [] => []
  | σ, a :: rest =>
    returning σ a ++
      match step σ a with
      | none => []
      | some next => dequeued next rest

/-! ### What a program point tells -/

/-- The node that the holder of the lock is about to link. -/
def linksSoon : EnqueuePc → Option Nat
  | .loadTail x | .storeHead x | .loadOldTail x | .link x _ => some x
  | _ => none

/-- The nodes of the batch that the reaper has not visited. -/
def unvisited : ReaperPc → List Nat → List Nat
  | .freeNode _ _ _, batch => batch.tail
  | _, batch => batch

/-- The nodes that are taken from the queue, before `reap_dequeue` returns them. -/
def unreturned : ReaperPc → List Nat → List Nat
  | .storeTail _, batch | .spinUnlock (some _), batch => batch
  | _, _ => []

/-- The reaper is inside the loop over its batch. -/
def Looping : ReaperPc → Prop
  | .readNext _ _ | .readThread _ _ _ | .visit _ _ _ _ | .freeNode _ _ _ => True
  | _ => False

theorem locks_of_linksSoon {pc : EnqueuePc} {x : Nat} (soon : linksSoon pc = some x) : Locks pc := by
  cases pc <;> trivial

theorem owned_of_linksSoon {pc : EnqueuePc} {x : Nat} (soon : linksSoon pc = some x) : owned pc = some x := by
  cases pc <;> first | exact soon | cases soon

theorem mem_of_taking {pc : ReaperPc} {queue batch : List Nat} {x : Nat} (loops : Looping pc)
    (member : x ∈ (taking pc queue batch).2) : x ∈ batch := by
  cases pc <;> first | exact member | exact List.mem_of_mem_tail member | exact loops.elim

theorem unvisited_sub {pc : ReaperPc} {batch : List Nat} {x : Nat} (member : x ∈ unvisited pc batch) : x ∈ batch := by
  cases pc <;> first | exact member | exact List.mem_of_mem_tail member

theorem unreturned_sub {pc : ReaperPc} {batch : List Nat} {x : Nat} (member : x ∈ unreturned pc batch) : x ∈ batch := by
  cases pc with
  | storeTail _ => exact member
  | spinUnlock list => cases list <;> first | exact member | cases member
  | _ => cases member

variable {Proc : Type} {σ σ' : State Proc} {queue batch : List Nat} {returned : List Batch}

/-- The threads that are in the order and not in the queue yet. -/
def Soon (σ : State Proc) (soon : List Nat) : Prop :=
  (∃ p x, linksSoon (σ.enqueuer p) = some x ∧ soon = [(σ.node x).thread]) ∨
    (∀ p, linksSoon (σ.enqueuer p) = none) ∧ soon = []

/-- The history against the queue and the batch. -/
structure History (σ : State Proc) (queue batch : List Nat) (returned : List Batch) : Prop where
  reading : ∀ t x next n, σ.reaper = .visit t x next n → (σ.node x).thread = t
  order : ∃ soon, Soon σ soon ∧
    σ.visited ++ threads σ.node (unvisited σ.reaper batch) ++ threads σ.node queue ++ soon = σ.order
  batches : ∃ batches, Forall₂ Holds returned batches ∧
    batches.flatten ++ threads σ.node (unreturned σ.reaper batch) =
      σ.visited ++ threads σ.node (unvisited σ.reaper batch)
  intact : Looping σ.reaper → ∀ x ∈ batch, ∃ last, returned.getLast? = some last ∧ σ.node x = last.node x

theorem start_history : History (start Proc) [] [] [] where
  reading := nofun
  order := ⟨[],.inr ⟨fun _ => rfl,rfl⟩,rfl⟩
  batches := ⟨[],.nil,rfl⟩
  intact := nofun

/-! ### Steps of the reaper -/

/-- What a step of the reaper does to the threads on their way: it visits one, or
    moves them from the queue to its batch. -/
theorem reaperMain_visits (queue : List Nat) {env : Env} (at_pc : BatchAt σ.next batch σ.reaper)
    (reading : ∀ t x next n, σ.reaper = .visit t x next n → (σ.node x).thread = t)
    (done : reaperMain σ env = some σ') :
    σ'.order = σ.order ∧
      σ'.visited ++ threads σ.node (unvisited σ'.reaper (taking σ.reaper queue batch).2) ++
          threads σ.node (taking σ.reaper queue batch).1 =
        σ.visited ++ threads σ.node (unvisited σ.reaper batch) ++ threads σ.node queue := by
  cases here : σ.reaper with
  | storeHead x =>
    rw [here] at at_pc
    have empty : batch = [] := at_pc
    simp only [reaperMain,here] at done
    cases done
    subst empty
    exact ⟨rfl,by simp [taking,unvisited,threads,State.reaperAt]⟩
  | visit t x next n =>
    rw [here] at at_pc
    obtain ⟨rest,rfl,_⟩ := at_pc
    simp only [reaperMain,here] at done
    cases done
    exact ⟨rfl,by simp [taking,unvisited,threads,State.reaperAt,reading t x next n here]⟩
  | freeNode x next n =>
    rw [here] at at_pc
    obtain ⟨rest,rfl,_⟩ := at_pc
    simp only [reaperMain,here] at done
    split at done <;> cases done <;> exact ⟨rfl,rfl⟩
  | fetchSub n =>
    simp only [reaperMain,here] at done
    cases done
    split <;> exact ⟨rfl,rfl⟩
  | spinUnlock list =>
    cases list <;> simp only [reaperMain,here] at done <;> cases done <;> exact ⟨rfl,rfl⟩
  | spinLock =>
    simp only [reaperMain,here] at done
    split at done <;> cases done
    · exact ⟨rfl,by rw [here]; rfl⟩
    · exact ⟨rfl,rfl⟩
  | _ =>
    simp only [reaperMain,here] at done
    try split at done
    all_goals cases done
    all_goals exact ⟨rfl,rfl⟩

/-- The batches that are returned and the rest of the reaper's batch are the
    threads that it has visited and those that it is going to visit. -/
theorem reaperMain_batches (queue : List Nat) {env : Env} (at_pc : BatchAt σ.next batch σ.reaper)
    (reading : ∀ t x next n, σ.reaper = .visit t x next n → (σ.node x).thread = t)
    (done : reaperMain σ env = some σ') :
    ∃ more, Forall₂ Holds (returning σ (.reap env)) more ∧ ∀ dealt,
      dealt ++ threads σ.node (unreturned σ.reaper batch) = σ.visited ++ threads σ.node (unvisited σ.reaper batch) →
      dealt ++ more.flatten ++ threads σ.node (unreturned σ'.reaper (taking σ.reaper queue batch).2) =
        σ'.visited ++ threads σ.node (unvisited σ'.reaper (taking σ.reaper queue batch).2) := by
  have nothing : ∀ dealt : List Nat, dealt ++ ([] : List (List Nat)).flatten = dealt := by simp
  cases here : σ.reaper with
  | storeHead x =>
    rw [here] at at_pc
    have empty : batch = [] := at_pc
    simp only [reaperMain,here] at done
    cases done
    subst empty
    refine ⟨[],by simp [returning,here],fun dealt same => ?_⟩
    rw [nothing]
    simpa [taking,unvisited,unreturned,threads,State.reaperAt] using same
  | spinUnlock list =>
    cases list with
    | none =>
      simp only [reaperMain,here] at done
      cases done
      exact ⟨[],by simp [returning,here],fun dealt same => by rw [nothing]; exact same⟩
    | some x =>
      rw [here] at at_pc
      simp only [reaperMain,here] at done
      cases done
      refine ⟨[threads σ.node batch],?_,fun dealt same => ?_⟩
      · simp only [returning,here]
        exact .cons ⟨batch,at_pc,rfl⟩ .nil
      · simpa [taking,unvisited,unreturned,threads,State.reaperAt] using same
  | visit t x next n =>
    rw [here] at at_pc
    obtain ⟨rest,rfl,_⟩ := at_pc
    simp only [reaperMain,here] at done
    cases done
    refine ⟨[],by simp [returning,here],fun dealt same => ?_⟩
    simpa [taking,unvisited,unreturned,threads,State.reaperAt,reading t x next n here] using same
  | freeNode x next n =>
    rw [here] at at_pc
    obtain ⟨rest,rfl,_⟩ := at_pc
    simp only [reaperMain,here] at done
    split at done <;> cases done <;>
      exact ⟨[],by simp [returning,here],fun dealt same => by rw [nothing]; exact same⟩
  | fetchSub n =>
    simp only [reaperMain,here] at done
    cases done
    split <;> exact ⟨[],by simp [returning,here],fun dealt same => by rw [nothing]; exact same⟩
  | spinLock =>
    simp only [reaperMain,here] at done
    split at done <;> cases done
    · exact ⟨[],by simp [returning,here],fun dealt same => by rw [nothing,here]; exact same⟩
    · exact ⟨[],by simp [returning,here],fun dealt same => by rw [nothing]; exact same⟩
  | _ =>
    simp only [reaperMain,here] at done
    try split at done
    all_goals cases done
    all_goals exact ⟨[],by simp [returning,here],fun dealt same => by rw [nothing]; exact same⟩

/-- The reaper gets into its loop with the batch that is returned. -/
theorem reaperMain_loops {env : Env} (done : reaperMain σ env = some σ') (loops : Looping σ'.reaper) :
    Looping σ.reaper ∧ returning σ (.reap env) = [] ∨ ∃ x, returning σ (.reap env) = [⟨x,σ.node⟩] := by
  cases here : σ.reaper with
  | spinUnlock list =>
    cases list with
    | none =>
      simp only [reaperMain,here] at done
      cases done
      exact loops.elim
    | some x => exact .inr ⟨x,by simp [returning,here]⟩
  | spinLock =>
    simp only [reaperMain,here] at done
    split at done <;> cases done
    · rw [here] at loops; exact loops.elim
    · exact loops.elim
  | readNext _ _ => exact .inl ⟨trivial,by simp [returning,here]⟩
  | readThread _ _ _ => exact .inl ⟨trivial,by simp [returning,here]⟩
  | visit _ _ _ _ => exact .inl ⟨trivial,by simp [returning,here]⟩
  | freeNode _ _ _ => exact .inl ⟨trivial,by simp [returning,here]⟩
  | _ =>
    simp only [reaperMain,here] at done
    try split at done
    all_goals cases done
    all_goals exact loops.elim

/-- The reaper goes on to visit the thread that it has just read. -/
theorem reaperMain_reading {env : Env} (done : reaperMain σ env = some σ') {t x : Nat} {next : Option Nat} {n : Nat}
    (visits : σ'.reaper = .visit t x next n) : (σ.node x).thread = t := by
  cases here : σ.reaper with
  | readThread y p m =>
    simp only [reaperMain,here] at done
    cases done
    cases visits
    rfl
  | spinUnlock list => cases list <;> simp only [reaperMain,here] at done <;> cases done <;> cases visits
  | spinLock =>
    simp only [reaperMain,here] at done
    split at done <;> cases done
    · rw [here] at visits; cases visits
    · cases visits
  | _ =>
    simp only [reaperMain,here] at done
    try split at done
    all_goals cases done
    all_goals cases visits

theorem History.reap {env : Env} (hist : History σ queue batch returned) (shape : Shape σ queue batch)
    (done : reaperMain σ env = some σ') :
    History σ' (taking σ.reaper queue batch).1 (taking σ.reaper queue batch).2
      (returned ++ returning σ (.reap env)) := by
  obtain ⟨pcs,node,_⟩ := reaperMain_frame done
  refine ⟨fun t x next n visits => node ▸ reaperMain_reading done visits,?_,?_,fun loops x member => ?_⟩
  · obtain ⟨order,moves⟩ := reaperMain_visits queue shape.batch hist.reading done
    obtain ⟨soon,isSoon,same⟩ := hist.order
    refine ⟨soon,?_,by rw [order,node,moves]; exact same⟩
    rw [Soon,pcs,node]
    exact isSoon
  · obtain ⟨more,holds,kept⟩ := reaperMain_batches queue shape.batch hist.reading done
    obtain ⟨batches,before,same⟩ := hist.batches
    refine ⟨batches ++ more,List.rel_append before holds,?_⟩
    rw [List.flatten_append,node]
    exact kept _ same
  · rw [node]
    rcases reaperMain_loops done loops with ⟨looping,none⟩ | ⟨y,some⟩
    · rw [none,List.append_nil]
      exact hist.intact looping x (mem_of_taking looping member)
    · exact ⟨⟨y,σ.node⟩,by rw [some,List.getLast?_append]; rfl,rfl⟩

/-! ### Steps of the calls -/

variable [DecidableEq Proc]

/-- What a step of a call does to the nodes of others: it links the last node of
    the queue to its own. -/
theorem reapEnqueue_node {p : Proc} {env : Env} (done : reapEnqueue σ p env = some σ') (x : Nat)
    (foreign : owned (σ.enqueuer p) ≠ some x) :
    σ'.node x = σ.node x ∨ ∃ y, σ.enqueuer p = .link y x ∧ σ'.node x = { σ.node x with next := some y } := by
  cases here : σ.enqueuer p with
  | idle => simp [reapEnqueue,here] at done
  | fill t y =>
    have other : x ≠ y := fun same => foreign (by rw [here,same]; rfl)
    simp only [reapEnqueue,here] at done
    cases done
    exact .inl (by simp [State.goto,State.setNode,other])
  | link y oldTail =>
    simp only [reapEnqueue,here] at done
    cases done
    by_cases isOld : x = oldTail
    · subst isOld
      exact .inr ⟨y,rfl,by simp [State.goto,State.setNext,State.setNode]⟩
    · exact .inl (by simp [State.goto,State.setNext,State.setNode,isOld])
  | futexWake =>
    simp only [reapEnqueue,here] at done
    cases done
    unfold State.futexWake
    split <;> exact .inl rfl
  | _ =>
    simp only [reapEnqueue,here] at done
    try split at done
    all_goals try split at done
    all_goals cases done
    all_goals exact .inl rfl

/-- What a step of a call does to the order: it takes the lock and appends its
    thread, it links its node, or nothing. -/
theorem reapEnqueue_order (queue : List Nat) {p : Proc} {env : Env} (done : reapEnqueue σ p env = some σ') :
    ∃ pc, σ'.enqueuer = Function.update σ.enqueuer p pc ∧ σ'.visited = σ.visited ∧
      (σ'.reaper = σ.reaper ∨ σ.reaper = .asleep ∧ σ'.reaper = .loadCount) ∧
      (linksSoon pc = linksSoon (σ.enqueuer p) ∧ σ'.order = σ.order ∧ linking (σ.enqueuer p) queue = queue ∨
        (∃ x, linksSoon pc = some x ∧ σ.lock = false ∧ σ'.order = σ.order ++ [(σ'.node x).thread] ∧
          linking (σ.enqueuer p) queue = queue) ∨
        ∃ x, linksSoon (σ.enqueuer p) = some x ∧ linksSoon pc = none ∧ σ'.order = σ.order ∧
          linking (σ.enqueuer p) queue = queue ++ [x]) := by
  cases here : σ.enqueuer p with
  | idle => simp [reapEnqueue,here] at done
  | spinLock x =>
    simp only [reapEnqueue,here] at done
    split at done <;> cases done
    · exact ⟨.spinLock x,by rw [← here]; simp,rfl,.inl rfl,.inl ⟨rfl,rfl,rfl⟩⟩
    · rename_i free
      have unlocked : σ.lock = false := by simpa using (not_or.mp free).1
      exact ⟨_,rfl,rfl,.inl rfl,.inr (.inl ⟨x,rfl,unlocked,rfl,rfl⟩)⟩
  | storeHead x =>
    simp only [reapEnqueue,here] at done
    cases done
    exact ⟨_,rfl,rfl,.inl rfl,.inr (.inr ⟨x,rfl,rfl,rfl,rfl⟩)⟩
  | link x oldTail =>
    simp only [reapEnqueue,here] at done
    cases done
    exact ⟨_,rfl,rfl,.inl rfl,.inr (.inr ⟨x,rfl,rfl,rfl,rfl⟩)⟩
  | futexWake =>
    simp only [reapEnqueue,here] at done
    cases done
    rcases futexWake_cases σ with same | ⟨asleep,woken⟩
    · rw [same]; exact ⟨_,rfl,rfl,.inl rfl,.inl ⟨rfl,rfl,rfl⟩⟩
    · rw [woken]; exact ⟨_,rfl,rfl,.inr ⟨asleep,rfl⟩,.inl ⟨rfl,rfl,rfl⟩⟩
  | _ =>
    simp only [reapEnqueue,here] at done
    try split at done
    all_goals try split at done
    all_goals cases done
    all_goals exact ⟨_,rfl,rfl,.inl rfl,.inl ⟨rfl,rfl,rfl⟩⟩

/-- Only the call that fills a node writes its thread. -/
theorem reapEnqueue_thread {p : Proc} {env : Env} (done : reapEnqueue σ p env = some σ') {x : Nat}
    (filled : ∀ t, σ.enqueuer p ≠ .fill t x) : (σ'.node x).thread = (σ.node x).thread := by
  obtain ⟨pc,_,_,_,_,_,effect⟩ := reapEnqueue_threads [] done
  rcases effect with ⟨same,_⟩ | ⟨t,y,calls,owns,_,_,same⟩
  · exact same x
  · refine same x fun isY => ?_
    cases here : σ.enqueuer p <;> rw [here] at calls owns <;> cases calls <;> cases owns
    exact filled t (by rw [here,isY])

theorem Soon.enqueue (inv : Invariant σ queue batch) {p : Proc} {env : Env} (done : reapEnqueue σ p env = some σ')
    {soon : List Nat} (isSoon : Soon σ soon) (same : threads σ'.node queue = threads σ.node queue) :
    ∃ soon', Soon σ' soon' ∧ ∃ more, σ'.order = σ.order ++ more ∧
      threads σ'.node (linking (σ.enqueuer p) queue) ++ soon' = threads σ.node queue ++ soon ++ more := by
  obtain ⟨pc,pcs,_,_,effect⟩ := reapEnqueue_order queue done
  have own : σ'.enqueuer p = pc := by rw [pcs,Function.update_self]
  have other : ∀ q, q ≠ p → σ'.enqueuer q = σ.enqueuer q := fun q different => by
    rw [pcs,Function.update_of_ne different]
  have kept : ∀ q x, linksSoon (σ.enqueuer q) = some x → (σ'.node x).thread = (σ.node x).thread := by
    intro q x links
    refine reapEnqueue_thread done fun t fills => ?_
    have isP : p = q := inv.nodes.unique p q x (by rw [fills]; rfl) (owned_of_linksSoon links)
    rw [← isP,fills] at links
    cases links
  rcases effect with ⟨links,order,queues⟩ | ⟨x,links,free,order,queues⟩ | ⟨x,links,out,order,queues⟩
  · have linkers : ∀ q, linksSoon (σ'.enqueuer q) = linksSoon (σ.enqueuer q) := by
      intro q
      by_cases isP : q = p
      · rw [isP,own,links]
      · rw [other q isP]
    refine ⟨soon,?_,[],by rw [order,List.append_nil],by rw [queues,same,List.append_nil]⟩
    rcases isSoon with ⟨q,x,holds,isX⟩ | ⟨none,empty⟩
    · exact .inl ⟨q,x,(linkers q).trans holds,by rw [kept q x holds]; exact isX⟩
    · exact .inr ⟨fun q => (linkers q).trans (none q),empty⟩
  · -- Nobody else is inside a locked section.
    have empty : soon = [] := by
      rcases isSoon with ⟨q,y,holds,_⟩ | ⟨_,empty⟩
      · have taken := inv.exclusive.taken q (locks_of_linksSoon holds)
        rw [free] at taken
        cases taken
      · exact empty
    refine ⟨[(σ'.node x).thread],.inl ⟨p,x,by rw [own,links],rfl⟩,_,order,?_⟩
    rw [queues,same,empty,List.append_nil]
  · have mine : soon = [(σ.node x).thread] := by
      rcases isSoon with ⟨q,y,holds,isY⟩ | ⟨none,_⟩
      · have isP := inv.exclusive.enqueuers p q (locks_of_linksSoon links) (locks_of_linksSoon holds)
        rw [← isP,links] at holds
        cases holds
        exact isY
      · rw [none p] at links
        cases links
    refine ⟨[],.inr ⟨fun q => ?_,rfl⟩,[],by rw [order,List.append_nil],?_⟩
    · by_cases isP : q = p
      · rw [isP,own,out]
      · rw [other q isP]
        by_contra some
        obtain ⟨y,holds⟩ := Option.ne_none_iff_exists'.mp some
        exact isP (inv.exclusive.enqueuers q p (locks_of_linksSoon holds) (locks_of_linksSoon links))
    · have split : threads σ'.node (queue ++ [x]) = threads σ'.node queue ++ [(σ'.node x).thread] := by simp [threads]
      rw [queues,split,same,kept p x links,mine,List.append_nil]

theorem History.enqueue {p : Proc} {env : Env} (hist : History σ queue batch returned) (inv : Invariant σ queue batch)
    (done : reapEnqueue σ p env = some σ') :
    History σ' (linking (σ.enqueuer p) queue) batch returned := by
  have foreign : ∀ x ∈ batch ++ queue, owned (σ.enqueuer p) ≠ some x := fun x member owns =>
    inv.nodes.unlinked p x owns member
  have inBatch : ∀ x ∈ batch, σ'.node x = σ.node x := by
    intro x member
    refine (reapEnqueue_node done x (foreign x (List.mem_append_left _ member))).resolve_right ?_
    rintro ⟨y,here,_⟩
    -- The old tail is in the queue.
    have last := inv.shape.enqueuers p
    rw [here] at last
    have inQueue : x ∈ queue := List.mem_of_getLast? last
    exact (List.nodup_append.mp inv.nodes.distinct).2.2 x member x inQueue rfl
  have sameQueue : threads σ'.node queue = threads σ.node queue := by
    refine List.map_congr_left fun x member => reapEnqueue_thread done fun t fills => ?_
    exact foreign x (List.mem_append_right _ member) (by rw [fills]; rfl)
  have sameOf : ∀ nodes, (∀ x ∈ nodes, x ∈ batch) → threads σ'.node nodes = threads σ.node nodes :=
    fun nodes sub => List.map_congr_left fun x member => by rw [inBatch x (sub x member)]
  obtain ⟨_,_,visited,reaper,_⟩ := reapEnqueue_order queue done
  have rest : unvisited σ'.reaper batch = unvisited σ.reaper batch ∧
      unreturned σ'.reaper batch = unreturned σ.reaper batch ∧ (Looping σ'.reaper → Looping σ.reaper) := by
    rcases reaper with same | ⟨asleep,awake⟩
    · rw [same]; exact ⟨rfl,rfl,id⟩
    · rw [asleep,awake]; exact ⟨rfl,rfl,id⟩
  constructor
  case reading =>
    intro t x next n visits
    have before : σ.reaper = .visit t x next n := by
      rcases reaper with same | ⟨_,awake⟩
      · exact same ▸ visits
      · rw [awake] at visits; cases visits
    have first := inv.shape.batch
    rw [before] at first
    obtain ⟨others,isBatch,_⟩ := first
    rw [inBatch x (isBatch ▸ List.mem_cons_self)]
    exact hist.reading t x next n before
  case order =>
    obtain ⟨soon,isSoon,same⟩ := hist.order
    obtain ⟨soon',isSoon',more,order,grows⟩ := Soon.enqueue inv done isSoon sameQueue
    refine ⟨soon',isSoon',?_⟩
    rw [visited,rest.1,sameOf _ fun _ => unvisited_sub,order,← same,List.append_assoc,grows]
    simp only [List.append_assoc]
  case batches =>
    obtain ⟨batches,holds,same⟩ := hist.batches
    refine ⟨batches,holds,?_⟩
    rw [visited,rest.1,rest.2.1,sameOf _ fun _ => unvisited_sub,sameOf _ fun _ => unreturned_sub]
    exact same
  case intact =>
    intro loops x member
    rw [inBatch x member]
    exact hist.intact (rest.2.2 loops) x member

/-! ### Every step -/

theorem History.enter (hist : History σ queue batch returned) {p : Proc} (t : Nat) (top : σ.enqueuer p = .idle) :
    History (σ.enter p t) queue batch returned := by
  refine ⟨hist.reading,?_,hist.batches,hist.intact⟩
  obtain ⟨soon,isSoon,same⟩ := hist.order
  have linkers : ∀ q, linksSoon ((σ.enter p t).enqueuer q) = linksSoon (σ.enqueuer q) := by
    intro q
    by_cases isP : q = p
    · subst isP; simp [State.enter,State.goto,top,linksSoon]
    · simp [State.enter,State.goto,isP]
  refine ⟨soon,?_,same⟩
  rcases isSoon with ⟨q,x,holds,isX⟩ | ⟨none,empty⟩
  · exact .inl ⟨q,x,(linkers q).trans holds,isX⟩
  · exact .inr ⟨fun q => (linkers q).trans (none q),empty⟩

theorem History.step {a : Act Proc} (hist : History σ queue batch returned) (inv : Invariant σ queue batch)
    (done : step σ a = some σ') :
    History σ' (moving σ queue batch a).1 (moving σ queue batch a).2 (returned ++ returning σ a) := by
  cases a with
  | enter p t =>
    simp only [ReapQueue.step] at done
    split at done <;> cases done
    exact (List.append_nil returned).symm ▸ hist.enter t ‹_›
  | enqueue p env => exact (List.append_nil returned).symm ▸ hist.enqueue inv done
  | reap env => exact hist.reap inv.shape done

theorem history_run {acts : List (Act Proc)} (hist : History σ queue batch returned) (inv : Invariant σ queue batch)
    (ran : Transition.run step σ acts = some σ') :
    ∃ queue' batch', Invariant σ' queue' batch' ∧ History σ' queue' batch' (returned ++ dequeued σ acts) := by
  induction acts generalizing σ queue batch returned with
  | nil =>
    cases ran
    exact ⟨queue,batch,inv,(List.append_nil returned).symm ▸ hist⟩
  | cons a rest ih =>
    obtain ⟨next,taken,ran⟩ := Transition.run_cons.mp ran
    obtain ⟨queue',batch',inv',hist'⟩ := ih (hist.step inv taken) (inv.step taken) ran
    refine ⟨queue',batch',inv',?_⟩
    rw [dequeued,taken,← List.append_assoc]
    exact hist'

/-- The queue against the batches that `reap_dequeue` has returned so far. -/
structure Faithful (σ : State Proc) (returned : List Batch) (queue rest : List Nat) (batches : List (List Nat)) :
    Prop where
  recorded : Forall₂ Holds returned batches
  -- What the reaper has still to do with the last batch is as it was returned.
  remains : BatchAt σ.next rest σ.reaper
  intact : Looping σ.reaper → ∀ x ∈ rest, ∃ last, returned.getLast? = some last ∧ σ.node x = last.node x
  -- Between the locked sections.
  ends : σ.lock = false → (σ.head = none ↔ σ.tail = none)
  chain : σ.lock = false → Chain σ.next σ.head queue ∧ σ.tail = queue.getLast?
  order : σ.lock = false → batches.flatten ++ threads σ.node queue = σ.order
  visited : σ.lock = false → σ.visited ++ threads σ.node (unvisited σ.reaper rest) = batches.flatten

/-- Whenever the lock is free, the queue is a chain from `head` to `tail`, the
    batches that `reap_dequeue` has returned and the queue are the threads in the
    order in which their enqueuers took the lock, and the reaper has visited the
    batches up to what is left of the last one. The nodes of a batch stay as they
    were returned until the reaper frees them. The order has the threads that
    `reap_enqueue` was called for, but for those whose calls have not taken the lock
    yet or had no memory for a node. -/
theorem queue_faithful {acts : List (Act Proc)} (ran : Transition.run step (start Proc) acts = some σ) :
    (∃ queue rest batches, Faithful σ (dequeued (start Proc) acts) queue rest batches) ∧
      Placed σ (called acts) (dropped (start Proc) acts) := by
  refine ⟨?_,placed_run start_placed start_invariant ran⟩
  obtain ⟨queue,batch,inv,hist⟩ := history_run start_history start_invariant ran
  rw [List.nil_append] at hist
  obtain ⟨batches,holds,dealt⟩ := hist.batches
  obtain ⟨soon,isSoon,order⟩ := hist.order
  have settled : σ.lock = false → soon = [] ∧ unreturned σ.reaper batch = [] := by
    intro free
    refine ⟨?_,?_⟩
    · rcases isSoon with ⟨p,x,links,_⟩ | ⟨_,empty⟩
      · have taken := inv.exclusive.taken p (locks_of_linksSoon links)
        rw [free] at taken
        cases taken
      · exact empty
    · have outside : ¬ ReaperLocks σ.reaper := fun inside => by
        have taken := inv.exclusive.takenReaper inside
        rw [free] at taken
        cases taken
      cases here : σ.reaper <;> rw [here] at outside <;> first | rfl | exact absurd trivial outside
  refine ⟨queue,batch,batches,holds,inv.shape.batch,hist.intact,fun free => ?_,
    fun free => ⟨inv.shape.chain,inv.shape.settled free⟩,fun free => ?_,fun free => ?_⟩
  · have chain := inv.shape.chain
    rw [inv.shape.settled free,List.getLast?_eq_none_iff]
    cases queue with
    | nil => exact iff_of_true chain rfl
    | cons x more => exact iff_of_false (by simp [chain.1]) (by simp)
  · obtain ⟨empty,none⟩ := settled free
    rw [none,threads,List.map_nil,List.append_nil] at dealt
    rw [dealt,← order,empty,List.append_nil]
  · rw [(settled free).2,threads,List.map_nil,List.append_nil] at dealt
    exact dealt.symm

example : (dequeued (start Nat) negativeSchedule).map Batch.head = [0] ∧
    (negativeAfter negativeSchedule).visited = [7,8] := by decide

theorem queue_faithful_negative : (∃ queue rest batches,
    Faithful (negativeAfter negativeSchedule) (dequeued (start Nat) negativeSchedule) queue rest batches) ∧
      Placed (negativeAfter negativeSchedule) (called negativeSchedule) (dropped (start Nat) negativeSchedule) :=
  queue_faithful (rfl : Transition.run step (start Nat) negativeSchedule = _)

end Os5Sem.ReapHistory
