import Os5Sem.ListLinear

/-!
What `print_result` prints of the searching threads. A counter of iterations is
the number of searches of its kind that are over, and the counter of pairs that
belongs to it is the sum of what they have found, but for what a search may have
added that is not over yet (`search_statistics`).
-/
namespace Os5Sem.ListStatistics
open Os5Sem.Adjacent Os5Sem.Serial Os5Sem.ListStorage Os5Sem.ListProgram Os5Sem.ListLocks Os5Sem.ListConvoy
open Os5Sem.ListRefine Os5Sem.ListOrder Os5Sem.ListSerializable Os5Sem.SwapCounters Os5Sem.ListLedger Os5Sem.ListLinear

/-- What an operation counts for as a search of the given kind. -/
def found (kind : Searcher) : Op → Outcome → Option Nat
  | .search kind',.pairs m => if kind' = kind then some m else none
  | _,_ => none

/-- The outcomes of the searches of one kind that are over, in the order of their
    first lock. -/
def cycles (kind : Searcher) (σ : State) : List Nat :=
  (List.range σ.order.length).filterMap fun i =>
    σ.order[i]?.bind fun entry => (σ.outcome i).bind fun result => found kind entry.2 result

variable {v : Variant} {s : Storage} {value : Nat → List Char} {nodes : List Nat} {σ σ' : State} {c : Convoy}

/-! ### The ledger of the searches -/

/-- A search that is over, weighed by what it has found. -/
def weighed (weight : Nat → Nat) (kind : Searcher) (_ : Nat) (op : Op) (result : Outcome) : Nat :=
  ((found kind op result).map weight).getD 0

theorem sum_filterMap (f : Nat → Option Nat) (weight : Nat → Nat) (n : Nat) :
    (((List.range n).filterMap f).map weight).sum = ∑ i ∈ Finset.range n, ((f i).map weight).getD 0 := by
  induction n with
  | zero => rfl
  | succ n ih =>
    rw [List.range_succ,List.filterMap_append,List.map_append,List.sum_append,ih,Finset.sum_range_succ]
    cases here : f n <;> simp [here]

theorem total_weighed (weight : Nat → Nat) (kind : Searcher) (σ : State) :
    total (weighed weight kind) (fun _ => 0) σ = ((cycles kind σ).map weight).sum := by
  rw [cycles,sum_filterMap,total]
  refine Finset.sum_congr rfl fun i _ => ?_
  unfold credit
  cases σ.order[i]? with
  | none => rfl
  | some entry => cases σ.outcome i <;> rfl

/-- What a search has added to its counter of pairs before it is over. -/
def added (kind : Searcher) : Pc → Nat
  | .search kind' (.addIteration m) => if kind' = kind then m else 0
  | _ => 0

/-- What a step of a thread does to the counters of the searches. -/
inductive Counts (σ σ' : State) (t : Nat) : Prop
  | none (iterations : σ'.iterations = σ.iterations) (pairs : σ'.pairs = σ.pairs)
      (before : ∀ kind, added kind (σ.pc t) = 0) (after : ∀ kind, added kind (σ'.pc t) = 0)
      (search : ∀ kind, opOf (σ.pc t) = some (.search kind) → σ'.pc t ≠ .idle)
  | adds (kind : Searcher) (n : Nat) (here : σ.pc t = .search kind (.addPairs n))
      (there : σ'.pc t = .search kind (.addIteration n)) (iterations : σ'.iterations = σ.iterations)
      (pairs : σ'.pairs = Function.update σ.pairs kind (σ.pairs kind + n))
  | ends (kind : Searcher) (n : Nat) (here : opOf (σ.pc t) = some (.search kind))
      (owed : ∀ kind', added kind' (σ.pc t) = if kind = kind' then n else 0) (top : σ'.pc t = .idle)
      (ended : σ'.outcome (σ.ticket t) = some (.pairs n))
      (iterations : σ'.iterations = Function.update σ.iterations kind (σ.iterations kind + 1))
      (pairs : σ'.pairs = σ.pairs)

theorem lock_counts {t x : Nat} {mode : Mode} {f : State → State} (taken : (σ.lock t x mode).map f = some σ')
    (keeps : ∀ σ : State, (f σ).iterations = σ.iterations ∧ (f σ).pairs = σ.pairs) :
    σ'.iterations = σ.iterations ∧ σ'.pairs = σ.pairs := by
  obtain ⟨σ1,granted,rfl⟩ := Option.map_eq_some_iff.mp taken
  unfold State.lock at granted
  split at granted <;> cases granted
  exact keeps _

theorem searchPairs_counts {t : Nat} {kind : Searcher} {pc : SearchPc} (here : σ.pc t = .search kind pc)
    (taken : searchPairs v s value kind t σ pc = some σ') : Counts σ σ' t := by
  have silent : ∀ {pc' : SearchPc}, σ'.iterations = σ.iterations → σ'.pairs = σ.pairs → σ'.pc t = .search kind pc' →
      (∀ kind', added kind' (.search kind pc) = 0) → (∀ kind', added kind' (.search kind pc') = 0) →
        Counts σ σ' t := by
    intro pc' iterations pairs goes before after
    refine .none iterations pairs (by rw [here]; exact before) (by rw [goes]; exact after) ?_
    rw [goes]
    simp
  cases pc <;> simp only [searchPairs] at taken
  case lockFirst =>
    obtain ⟨iterations,pairs⟩ := lock_counts taken fun _ => ⟨rfl,rfl⟩
    exact silent iterations pairs (lock_own taken fun _ => goto_self) (fun _ => rfl) fun _ => rfl
  case lockA =>
    obtain ⟨iterations,pairs⟩ := lock_counts taken fun _ => ⟨rfl,rfl⟩
    exact silent iterations pairs (lock_own taken fun _ => goto_self) (fun _ => rfl) fun _ => rfl
  case lockB =>
    obtain ⟨iterations,pairs⟩ := lock_counts taken fun _ => ⟨rfl,rfl⟩
    exact silent iterations pairs (lock_own taken fun _ => goto_self) (fun _ => rfl) fun _ => rfl
  case addPairs n =>
    cases taken
    exact .adds kind n here goto_self rfl rfl
  case addIteration n =>
    cases taken
    exact .ends kind n (by rw [here]; rfl) (fun _ => by rw [here]; rfl) (by simp [State.leave,State.goto])
      (Function.update_self ..) rfl rfl
  case countSingle =>
    cases taken
    exact .ends kind 0 (by rw [here]; rfl) (fun _ => by rw [here,ite_self]; rfl) (by simp [State.leave,State.goto])
      (Function.update_self ..) rfl rfl
  case unlockLast a n =>
    split at taken <;> rename_i none <;> cases taken
    · exact silent rfl rfl goto_self (fun _ => rfl) fun _ => by simp [added,none]
    · exact silent rfl rfl goto_self (fun _ => rfl) fun _ => rfl
  all_goals
    try split at taken
    all_goals cases taken
    all_goals exact silent rfl rfl goto_self (fun _ => rfl) fun _ => rfl

theorem swapPairs_counts {t k : Nat} {kind : Swapper} {pc : SwapPc} (here : σ.pc t = .swap kind k pc)
    (taken : swapPairs s value kind k t σ pc = some σ') : Counts σ σ' t := by
  have silent : ∀ {pc' : Pc}, σ'.iterations = σ.iterations → σ'.pairs = σ.pairs → σ'.pc t = pc' →
      (∀ kind', added kind' pc' = 0) → Counts σ σ' t := by
    intro pc' iterations pairs goes after
    refine .none iterations pairs (fun _ => by rw [here]; rfl) (by rw [goes]; exact after) fun kind' is => ?_
    rw [here] at is
    cases pc <;> cases is
  cases pc <;> simp only [swapPairs] at taken
  case lockPrev =>
    obtain ⟨iterations,pairs⟩ := lock_counts taken fun _ => ⟨rfl,rfl⟩
    exact silent iterations pairs (lock_own taken fun _ => goto_self) fun _ => rfl
  case lockCur =>
    obtain ⟨iterations,pairs⟩ := lock_counts taken fun _ => ⟨rfl,rfl⟩
    exact silent iterations pairs (lock_own taken fun _ => goto_self) fun _ => rfl
  case lockStep =>
    obtain ⟨iterations,pairs⟩ := lock_counts taken fun _ => ⟨rfl,rfl⟩
    exact silent iterations pairs (lock_own taken fun _ => goto_self) fun _ => rfl
  case lockNext =>
    obtain ⟨iterations,pairs⟩ := lock_counts taken fun _ => ⟨rfl,rfl⟩
    exact silent iterations pairs (lock_own taken fun _ => goto_self) fun _ => rfl
  case swapNodes prev cur next pc => cases pc <;> cases taken <;> exact silent rfl rfl goto_self fun _ => rfl
  all_goals
    try split at taken
    all_goals cases taken
    all_goals exact silent rfl rfl goto_self fun _ => rfl

theorem counts_step {t : Nat} (taken : step v s value σ (.step t) = some σ') : Counts σ σ' t := by
  generalize isStep : Act.step t = a at taken
  cases step_cases taken with
  | searching here taken => cases isStep; exact searchPairs_counts here taken
  | swapping here taken => cases isStep; exact swapPairs_counts here taken
  | _ => cases isStep

/-! ### Runs -/

theorem added_outside {kind : Searcher} {pc : Pc} (outside : opOf pc = none) : added kind pc = 0 := by
  cases pc with
  | idle => rfl
  | search kind' pc => cases pc <;> first | rfl | cases outside
  | swap kind' k pc => rfl

/-- A step that is not about the counters of the searches. -/
theorem earns_nothing {t q : Nat} {earned earned' : Nat → Nat} (weight : Nat → Nat) (kind : Searcher)
    (entry : Entry σ σ' t) (before : earned t = 0) (after : earned' t = 0)
    (search : ∀ kind, opOf (σ.pc t) = some (.search kind) → σ'.pc t ≠ .idle) :
    Earns (weighed weight kind) earned earned' σ σ' t q q := by
  cases entry with
  | stays _ _ _ same =>
    cases here : opOf (σ.pc t) with
    | none => exact .outside here (same.trans here) rfl
    | some op => exact .inside (by rw [same,here]; simp) (by rw [before,after])
  | enters _ _ _ _ inside => exact .inside (by rw [inside]; simp) (by rw [before,after])
  | @leaves op result _ _ outcome here top =>
    refine .leaves op result here top (by rw [outcome,Function.update_self]) ?_
    cases op with
    | search kind' => exact absurd top (search kind' here)
    | swap kind' k => rw [before]; rfl

/-- The counter of pairs goes with what the searches have found. -/
theorem earns_pairs {t : Nat} (kind : Searcher) (entry : Entry σ σ' t) (counts : Counts σ σ' t) :
    Earns (weighed id kind) (fun u => added kind (σ.pc u)) (fun u => added kind (σ'.pc u)) σ σ' t (σ.pairs kind)
      (σ'.pairs kind) := by
  cases counts with
  | none _ pairs before after search =>
    rw [pairs]
    exact earns_nothing id kind entry (before kind) (after kind) search
  | adds kind' n here there _ pairs =>
    refine .inside (by rw [there]; simp [opOf]) ?_
    simp only [here,there,pairs,added]
    by_cases same : kind' = kind
    · subst same
      rw [Function.update_self,if_pos rfl,Nat.add_zero]
    · rw [Function.update_of_ne (Ne.symm same),if_neg same]
  | ends kind' n here owed top ended _ pairs =>
    refine .leaves (.search kind') (.pairs n) here top ended ?_
    simp only [owed,pairs,weighed,found]
    split <;> rfl

/-- The counter of iterations goes with the number of searches that are over. -/
theorem earns_iterations {t : Nat} (kind : Searcher) (entry : Entry σ σ' t) (counts : Counts σ σ' t) :
    Earns (weighed (fun _ => 1) kind) (fun _ => 0) (fun _ => 0) σ σ' t (σ.iterations kind) (σ'.iterations kind) := by
  cases counts with
  | none iterations _ before after search =>
    rw [iterations]
    exact earns_nothing _ kind entry rfl rfl search
  | adds kind' n here there iterations _ => exact .inside (by rw [there]; simp [opOf]) (by rw [iterations])
  | ends kind' n here owed top ended iterations _ =>
    refine .leaves (.search kind') (.pairs n) here top ended ?_
    simp only [iterations,weighed,found]
    by_cases same : kind' = kind
    · subst same
      rw [Function.update_self,if_pos rfl]
      rfl
    · rw [Function.update_of_ne (Ne.symm same),if_neg same]
      rfl

/-- The counters of the searches are the totals of their ledgers. -/
structure Booked (σ : State) : Prop where
  tallied : Tallied σ
  pending : Pending σ
  iterations : ∀ kind, σ.iterations kind = total (weighed (fun _ => 1) kind) (fun _ => 0) σ
  pairs : ∀ kind, σ.pairs kind = total (weighed id kind) (fun u => added kind (σ.pc u)) σ

theorem booked_step (σ : State) (a : Act) (σ' : State) (booked : Booked σ) (taken : step v s value σ a = some σ') :
    Booked σ' := by
  obtain ⟨tallied,pending,iterations,pairs⟩ := booked
  have tallied' := tallied_step tallied taken
  have pending' := pending_step pending taken
  cases who : actor a with
  | none =>
    cases a <;> cases who
    cases taken
    exact ⟨tallied',pending',iterations,pairs⟩
  | some t =>
    have entry := entry_step who taken
    have others : ∀ kind u, u ≠ t → added kind (σ'.pc u) = added kind (σ.pc u) := by
      intro kind u other
      rw [step_others (by rw [who]; exact fun same => other (Option.some.inj same).symm) taken]
    have earns : ∀ kind,
        Earns (weighed (fun _ => 1) kind) (fun _ => 0) (fun _ => 0) σ σ' t (σ.iterations kind) (σ'.iterations kind) ∧
          Earns (weighed id kind) (fun u => added kind (σ.pc u)) (fun u => added kind (σ'.pc u)) σ σ' t
            (σ.pairs kind) (σ'.pairs kind) := by
      intro kind
      by_cases isStep : a = .step t
      · subst isStep
        exact ⟨earns_iterations kind entry (counts_step taken),earns_pairs kind entry (counts_step taken)⟩
      · obtain ⟨before,after⟩ := begins_outside who isStep taken
        have same : σ'.iterations = σ.iterations ∧ σ'.pairs = σ.pairs := by
          cases step_cases taken with
          | search => exact ⟨rfl,rfl⟩
          | swap => exact ⟨rfl,rfl⟩
          | searching => cases who; exact absurd rfl isStep
          | swapping => cases who; exact absurd rfl isStep
          | stop => cases who
        exact ⟨.outside before after (by rw [same.1]),.outside before after (by rw [same.2])⟩
    refine ⟨tallied',pending',fun kind => ?_,fun kind => ?_⟩
    · have balance := total_earns tallied pending entry (fun _ _ => rfl) (fun _ => rfl) (fun _ => rfl) (earns kind).1
      have was := iterations kind
      omega
    · have balance := total_earns tallied pending entry (others kind) added_outside added_outside (earns kind).2
      have was := pairs kind
      omega

theorem start_booked (h : Heap) : Booked (start h) := ⟨start_tallied h,start_pending h,fun _ => rfl,fun _ => rfl⟩

/-! ### What a search can find -/

theorem countPairs_le (test : Nat → Nat → Bool) (l : List Nat) : countPairs test l ≤ l.length - 1 := by
  induction l with
  | nil => exact Nat.le_refl _
  | cons x rest ih =>
    cases rest with
    | nil => exact Nat.le_refl _
    | cons y rest =>
      simp only [countPairs,List.length_cons] at ih ⊢
      split <;> omega

theorem serialOp_length (value : Nat → List Char) (op : Op) (nodes : List Nat) :
    (serialOp value op nodes).1.length = nodes.length := by
  cases op with
  | search kind => rfl
  | swap kind k =>
    rw [serialOp]
    split
    · exact exchange_length k nodes
    · rfl

/-- A search finds less pairs than the list has nodes. -/
theorem serially_found {ops : List Op} {nodes : List Nat} {i m : Nat} {op : Op} {result : Outcome}
    {kind : Searcher} (here : ops[i]? = some op) (outcome : (serially value ops nodes).2[i]? = some result)
    (is : found kind op result = some m) : m ≤ nodes.length - 1 := by
  induction ops generalizing i nodes with
  | nil => cases here
  | cons op' later ih =>
    cases i with
    | zero =>
      cases here
      cases outcome
      cases op with
      | swap kind' k => cases is
      | search kind' =>
        simp only [found,serialOp] at is
        split at is <;> cases is
        exact countPairs_le _ _
    | succ i =>
      rw [← serialOp_length value op' nodes]
      exact ih here outcome

theorem mem_cycles {kind : Searcher} {m : Nat} (member : m ∈ cycles kind σ) :
    ∃ (i t : Nat) (op : Op) (result : Outcome), σ.order[i]? = some (t,op) ∧ σ.outcome i = some result ∧
      found kind op result = some m := by
  obtain ⟨i,_,is⟩ := List.mem_filterMap.mp member
  obtain ⟨⟨t,op⟩,entry,is⟩ := Option.bind_eq_some_iff.mp is
  obtain ⟨result,ended,is⟩ := Option.bind_eq_some_iff.mp is
  exact ⟨i,t,op,result,entry,ended,is⟩

/-- In every reachable state of each program: a counter of iterations is the number of
    the searches of its kind that are over, its counter of pairs is never behind what
    they have found, and equal to it while none of them is about to end, and each
    has found less pairs than there are nodes. -/
theorem search_statistics {v : Variant} {n : Int} (two : 2 ≤ n) {succeeds : Nat → Bool} {rand : Nat → Nat} {s : Storage}
    {h : Heap} (built : storageInit n succeeds rand = (some s,h)) {acts : List Act} {σ : State}
    (ran : Transition.run (step v s h.value) (start h) acts = some σ) (kind : Searcher) :
    σ.iterations kind = (cycles kind σ).length ∧ (cycles kind σ).sum ≤ σ.pairs kind ∧
      ((∀ t m, σ.pc t ≠ .search kind (.addIteration m)) → σ.pairs kind = (cycles kind σ).sum) ∧
      ∀ m ∈ cycles kind σ, m ≤ n.toNat - 1 := by
  obtain ⟨size,nodes,holds⟩ := storageInit_holds built
  obtain ⟨c,stands⟩ := run_stands holds (by omega) ran
  have booked := Transition.run_invariant (P := Booked) booked_step ran (start_booked h)
  have ended : total (weighed id kind) (fun _ => 0) σ = (cycles kind σ).sum := by rw [total_weighed,List.map_id]
  refine ⟨?_,?_,fun quiet => ?_,fun m member => ?_⟩
  · rw [booked.iterations,total_weighed,List.map_const',List.sum_replicate_nat,Nat.mul_one]
  · rw [booked.pairs,← ended]
    exact total_le (fun _ => Nat.zero_le _) σ
  · have none : (fun u => added kind (σ.pc u)) = fun _ => 0 := by
      funext u
      have isNot := quiet u
      generalize σ.pc u = pc at isNot
      unfold added
      split
      · rename_i kind' m
        exact if_neg fun same => isNot m (by rw [same])
      · rfl
    rw [booked.pairs,none,ended]
  · obtain ⟨i,t,op,result,entry,outcome,is⟩ := mem_cycles member
    have bound := serially_found (by simp [entry]) (outcome_serial stands booked.tallied entry outcome) is
    have length := holds.size
    omega

/-- The search of `pairSchedule` has found the pair that the swap exchanges later. -/
theorem search_statistics_pair :
    (pairAfter .mutex pairSchedule).iterations .desc = (cycles .desc (pairAfter .mutex pairSchedule)).length ∧
      (cycles .desc (pairAfter .mutex pairSchedule)).sum ≤ (pairAfter .mutex pairSchedule).pairs .desc ∧
      ((∀ t m, (pairAfter .mutex pairSchedule).pc t ≠ .search .desc (.addIteration m)) →
        (pairAfter .mutex pairSchedule).pairs .desc = (cycles .desc (pairAfter .mutex pairSchedule)).sum) ∧
      ∀ m ∈ cycles .desc (pairAfter .mutex pairSchedule), m ≤ (2 : Int).toNat - 1 :=
  search_statistics (n := 2) (by decide) (rfl : storageInit 2 (fun _ => true) pairRand = _)
    (rfl : Transition.run (step .mutex pairStorage pairHeap.value) _ pairSchedule = _) .desc

end Os5Sem.ListStatistics
