import Os5Sem.Connections

/-!
The descriptors of the proxy. A descriptor belongs to `main` until a thread is
there, then to the thread of the connection, in a cell of the heap at first
(`held`): both close what they own once, and use nothing that they do not own.
A connection for which there is no memory for the cell keeps its descriptor open
(`lost_stays_open`).
-/
namespace Os5Sem.Descriptors
open Os5Sem.Connections Os5Sem.Handles
open Os5Sem.Transition (run run_invariant)

/-! ### Who holds what -/

/-- The connection that `main` has not handed over yet. -/
def conn : MainPc → Option Nat
  | .accept => none
  | .malloc k _ | .storeArg k _ _ | .pthreadCreate k _ _ | .freeArg k _ _ | .closeClient k _ => some k

def mainClient : MainPc → Option Nat
  | .accept => none
  | .malloc _ fd | .storeArg _ fd _ | .pthreadCreate _ fd _ | .freeArg _ fd _ | .closeClient _ fd => some fd

def mainCell : MainPc → Option Nat
  | .storeArg _ _ arg | .pthreadCreate _ _ arg | .freeArg _ _ arg => some arg
  | _ => none

/-- The client's descriptor that a handler has not closed yet. Without a handler it
    is lost, if it is still open. -/
def handlerClient (value : Nat → Nat) (lost : Option Nat) : HandlerPc → Option Nat
  | .absent => lost
  | .loadArg arg => some (value arg)
  | .freeArg _ fd | .read fd | .parseRequestLine fd _ | .parseHeaders fd _ | .resolveHost fd _ | .socket fd _
  | .setRcvTimeo fd _ _ | .setSndTimeo fd _ _ | .connect fd _ _ | .writeRemote fd _ _ _ | .readRemote fd _
  | .writeClient fd _ _ _ | .closeClient fd _ => some fd
  | .closeRemote _ | .exit | .exited => none

def handlerRemote : HandlerPc → Option Nat
  | .setRcvTimeo _ _ fd | .setSndTimeo _ _ fd | .connect _ _ fd | .writeRemote _ fd _ _ | .readRemote _ fd
  | .writeClient _ fd _ _ | .closeRemote fd => some fd
  | .closeClient _ fd => fd
  | _ => none

def handlerCell : HandlerPc → Option Nat
  | .loadArg arg | .freeArg arg _ => some arg
  | _ => none

/-- The handler has not called `socket` yet. -/
def Early : HandlerPc → Prop
  | .absent | .loadArg _ | .freeArg _ _ | .read _ | .parseRequestLine _ _ | .parseHeaders _ _ | .resolveHost _ _
  | .socket _ _ => True
  | _ => False

/-- The descriptor that is held for a socket. -/
def held (σ : State) : Socket → Option Nat
  | .client k =>
    if conn σ.main = some k then mainClient σ.main else handlerClient σ.value (σ.lost k) (σ.handler k)
  | .remote k => handlerRemote (σ.handler k)

/-- The cell that is held for a connection. -/
def heldCell (σ : State) (k : Nat) : Option Nat :=
  if conn σ.main = some k then mainCell σ.main else handlerCell (σ.handler k)

/-- Everything that is open or allocated is held by `main` or by a handler, or it
    is lost. -/
structure Held (σ : State) : Prop where
  descriptors : Balanced σ.descriptors (held σ)
  cells : Balanced σ.cells (heldCell σ)
  current : ∀ k, conn σ.main = some k → k < σ.accepted ∧ σ.handler k = .absent ∧ σ.lost k = none
  stored : ∀ k fd arg, σ.main = .pthreadCreate k fd arg → σ.value arg = fd
  fresh : ∀ k, σ.accepted ≤ k → σ.handler k = .absent ∧ σ.lost k = none
  clients : ∀ k, σ.descriptors.taken (.client k) = if k < σ.accepted then 1 else 0
  served : ∀ k, σ.handler k ≠ .absent → σ.lost k = none
  remotes : ∀ k, σ.descriptors.taken (.remote k) ≤ 1 ∧ (Early (σ.handler k) → σ.descriptors.taken (.remote k) = 0)

variable {σ σ' : State}

theorem start_held : Held start where
  descriptors := balanced_empty.congr fun s => by cases s <;> rfl
  cells := balanced_empty.congr fun _ => rfl
  current _ is := by cases is
  stored _ _ _ is := by cases is
  fresh _ _ := ⟨rfl,rfl⟩
  clients _ := rfl
  served _ _ := rfl
  remotes _ := ⟨Nat.zero_le _,fun _ => rfl⟩

theorem openAs_some {fd : Nat} {s : Socket} (opened : σ.openAs fd s = some σ') :
    σ.descriptors.owner fd = none ∧ σ' = { σ with descriptors := σ.descriptors.take fd s } := by
  unfold State.openAs at opened
  split at opened
  · rename_i free
    cases opened
    exact ⟨free,rfl⟩
  · cases opened

/-! ### Steps of the handlers -/

/-- A handler exists only for a connection that `main` has handed over. -/
theorem Held.not_current (inv : Held σ) {k : Nat} (there : σ.handler k ≠ .absent) : conn σ.main ≠ some k :=
  fun is => there (inv.current k is).2.1

/-- A handler takes a step that changes what it holds as `pc` tells. -/
theorem Held.handler (inv : Held σ) {k : Nat} {pc : HandlerPc} (there : σ.handler k ≠ .absent)
    (handlers : σ'.handler = Function.update σ.handler k pc)
    (rest : σ'.main = σ.main ∧ σ'.value = σ.value ∧ σ'.accepted = σ.accepted ∧ σ'.lost = σ.lost)
    (descriptors : Balanced σ'.descriptors (Function.update (Function.update (held σ) (.client k)
      (handlerClient σ.value (σ.lost k) pc)) (.remote k) (handlerRemote pc)))
    (cells : Balanced σ'.cells (Function.update (heldCell σ) k (handlerCell pc)))
    (clients : ∀ j, σ'.descriptors.taken (.client j) = σ.descriptors.taken (.client j))
    (remotes : ∀ j, σ'.descriptors.taken (.remote j) ≤ 1 ∧
      (Early (σ'.handler j) → σ'.descriptors.taken (.remote j) = 0)) : Held σ' := by
  obtain ⟨main,value,accepted,lost⟩ := rest
  have notCurrent := inv.not_current there
  have others : ∀ j, j ≠ k → σ'.handler j = σ.handler j := fun j other => by
    rw [handlers,Function.update_of_ne other]
  have own : σ'.handler k = pc := by rw [handlers,Function.update_self]
  constructor
  case descriptors =>
    refine descriptors.congr fun s => ?_
    cases s with
    | client j =>
      rw [Function.update_of_ne (by simp),held,main,value,lost]
      by_cases isK : j = k
      · subst isK; rw [if_neg notCurrent,own,Function.update_self]
      · rw [others j isK,Function.update_of_ne (by simpa using isK),held]
    | remote j =>
      rw [held]
      by_cases isK : j = k
      · subst isK; rw [own,Function.update_self]
      · rw [others j isK,Function.update_of_ne (by simpa using isK),Function.update_of_ne (by simp),held]
  case cells =>
    refine cells.congr fun j => ?_
    rw [heldCell,main]
    by_cases isK : j = k
    · subst isK; rw [if_neg notCurrent,own,Function.update_self]
    · rw [others j isK,Function.update_of_ne isK,heldCell]
  case current =>
    intro j is
    rw [main] at is
    have isNotK : j ≠ k := fun same => notCurrent (same ▸ is)
    rw [accepted,others j isNotK,lost]
    exact inv.current j is
  case stored =>
    rw [main,value]
    exact inv.stored
  case fresh =>
    intro j late
    rw [accepted] at late
    have isNotK : j ≠ k := fun same => there (same ▸ (inv.fresh j late).1)
    rw [others j isNotK,lost]
    exact inv.fresh j late
  case clients =>
    intro j
    rw [clients,accepted]
    exact inv.clients j
  case served =>
    intro j isThere
    rw [lost]
    by_cases isK : j = k
    · subst isK; exact inv.served j there
    · exact inv.served j (others j isK ▸ isThere)
  case remotes => exact remotes

theorem Held.client_of_handler (inv : Held σ) {k : Nat} (there : σ.handler k ≠ .absent) :
    held σ (.client k) = handlerClient σ.value (σ.lost k) (σ.handler k) := if_neg (inv.not_current there)

theorem Held.cell_of_handler (inv : Held σ) {k : Nat} (there : σ.handler k ≠ .absent) :
    heldCell σ k = handlerCell (σ.handler k) := if_neg (inv.not_current there)

/-- After a step of a handler the remote sockets that there were are still the only
    ones, when the handler opens none. -/
theorem Held.remotes_keep (inv : Held σ) {k : Nat} {pc : HandlerPc} (early : Early pc → Early (σ.handler k)) (j : Nat) :
    σ.descriptors.taken (.remote j) ≤ 1 ∧
      (Early (Function.update σ.handler k pc j) → σ.descriptors.taken (.remote j) = 0) := by
  refine ⟨(inv.remotes j).1,fun is => (inv.remotes j).2 ?_⟩
  by_cases isK : j = k
  · subst isK
    rw [Function.update_self] at is
    exact early is
  · rwa [Function.update_of_ne isK] at is

/-- The handler goes on and holds what it held before. -/
theorem Held.goes (inv : Held σ) {k : Nat} {pc : HandlerPc} (there : σ.handler k ≠ .absent)
    (client : handlerClient σ.value (σ.lost k) pc = handlerClient σ.value (σ.lost k) (σ.handler k))
    (remote : handlerRemote pc = handlerRemote (σ.handler k)) (cell : handlerCell pc = handlerCell (σ.handler k))
    (early : Early pc → Early (σ.handler k)) : Held (σ.handlerAt k pc) := by
  refine inv.handler there rfl ⟨rfl,rfl,rfl,rfl⟩ ?_ ?_ (fun _ => rfl) (inv.remotes_keep early)
  · rw [client,← inv.client_of_handler there,Function.update_eq_self]
    exact inv.descriptors.keep remote
  · exact inv.cells.keep (cell.trans (inv.cell_of_handler there).symm)

/-- The handler opens its remote socket. -/
theorem Held.opens (inv : Held σ) {k fd : Nat} {pc : HandlerPc} (there : σ.handler k ≠ .absent)
    (free : σ.descriptors.owner fd = none) (first : Early (σ.handler k)) (none : handlerRemote (σ.handler k) = none)
    (client : handlerClient σ.value (σ.lost k) pc = handlerClient σ.value (σ.lost k) (σ.handler k))
    (remote : handlerRemote pc = some fd) (cell : handlerCell pc = handlerCell (σ.handler k)) (late : ¬ Early pc) :
    Held (State.handlerAt { σ with descriptors := σ.descriptors.take fd (.remote k) } k pc) := by
  have before : σ.descriptors.taken (.remote k) = 0 := (inv.remotes k).2 first
  refine inv.handler there rfl ⟨rfl,rfl,rfl,rfl⟩ ?_ ?_ (fun j => ?_) (fun j => ?_)
  · rw [client,← inv.client_of_handler there,remote,Function.update_eq_self]
    exact inv.descriptors.take free none
  · exact inv.cells.keep (cell.trans (inv.cell_of_handler there).symm)
  · simp [State.handlerAt,Table.take]
  · by_cases isK : j = k
    · subst isK
      simp [State.handlerAt,Table.take,before,late]
    · have other : Socket.remote j ≠ .remote k := by simpa using isK
      simpa [State.handlerAt,Table.take,other,isK] using inv.remotes j

/-- The handler closes the client's descriptor. -/
theorem Held.closesClient (inv : Held σ) {k fd : Nat} {pc : HandlerPc} (there : σ.handler k ≠ .absent)
    (mine : handlerClient σ.value (σ.lost k) (σ.handler k) = some fd)
    (client : handlerClient σ.value (σ.lost k) pc = none) (remote : handlerRemote pc = handlerRemote (σ.handler k))
    (cell : handlerCell pc = handlerCell (σ.handler k)) (late : ¬ Early pc) :
    Held ((σ.close fd (.client k)).handlerAt k pc) := by
  have held := (inv.client_of_handler there).trans mine
  have remotes := @Held.remotes_keep σ inv k pc fun early => absurd early late
  refine inv.handler there rfl ⟨rfl,rfl,rfl,rfl⟩ ?_ ?_ (fun _ => rfl) remotes
  · rw [client]
    refine (inv.descriptors.release held).keep ?_
    rw [Function.update_of_ne (by simp),remote]
    rfl
  · exact inv.cells.keep (cell.trans (inv.cell_of_handler there).symm)

/-- The handler closes the descriptor of its remote socket. -/
theorem Held.closesRemote (inv : Held σ) {k fd : Nat} {pc : HandlerPc} (there : σ.handler k ≠ .absent)
    (mine : handlerRemote (σ.handler k) = some fd)
    (client : handlerClient σ.value (σ.lost k) pc = handlerClient σ.value (σ.lost k) (σ.handler k))
    (remote : handlerRemote pc = none) (cell : handlerCell pc = handlerCell (σ.handler k)) (late : ¬ Early pc) :
    Held ((σ.close fd (.remote k)).handlerAt k pc) := by
  have remotes := @Held.remotes_keep σ inv k pc fun early => absurd early late
  refine inv.handler there rfl ⟨rfl,rfl,rfl,rfl⟩ ?_ ?_ (fun _ => rfl) remotes
  · rw [client,← inv.client_of_handler there,remote,Function.update_eq_self]
    exact inv.descriptors.release mine
  · exact inv.cells.keep (cell.trans (inv.cell_of_handler there).symm)

/-- The handler frees the cell in which its descriptor was handed over. -/
theorem Held.frees (inv : Held σ) {k arg : Nat} {pc : HandlerPc} (there : σ.handler k ≠ .absent)
    (mine : handlerCell (σ.handler k) = some arg)
    (client : handlerClient σ.value (σ.lost k) pc = handlerClient σ.value (σ.lost k) (σ.handler k))
    (remote : handlerRemote pc = handlerRemote (σ.handler k)) (cell : handlerCell pc = none)
    (early : Early pc → Early (σ.handler k)) : Held ((σ.free arg k).handlerAt k pc) := by
  refine inv.handler there rfl ⟨rfl,rfl,rfl,rfl⟩ ?_ ?_ (fun _ => rfl) (inv.remotes_keep early)
  · rw [client,← inv.client_of_handler there,Function.update_eq_self]
    exact inv.descriptors.keep remote
  · rw [cell]
    exact inv.cells.release ((inv.cell_of_handler there).trans mine)

theorem handler_held (inv : Held σ) {k : Nat} {result : Int} (done : handleClient σ k result = some σ') : Held σ' := by
  have there : σ.handler k ≠ .absent := fun absent => by rw [handleClient,absent] at done; cases done
  have goes := fun {pc : HandlerPc} => @Held.goes σ inv k pc there
  have opens := fun {fd : Nat} {pc : HandlerPc} => @Held.opens σ inv k fd pc there
  have closesClient := fun {fd : Nat} {pc : HandlerPc} => @Held.closesClient σ inv k fd pc there
  have closesRemote := fun {fd : Nat} {pc : HandlerPc} => @Held.closesRemote σ inv k fd pc there
  have frees := fun {arg : Nat} {pc : HandlerPc} => @Held.frees σ inv k arg pc there
  unfold handleClient at done
  cases here : σ.handler k <;> rw [here] at done goes opens closesClient closesRemote frees <;> simp only at done
  case loadArg arg => cases done; exact goes rfl rfl rfl id
  case freeArg arg fd => cases done; exact frees rfl rfl rfl rfl fun _ => trivial
  case socket fd readed =>
    split at done
    · cases done; exact goes rfl rfl rfl nofun
    · obtain ⟨σ1,opened,rfl⟩ := Option.map_eq_some_iff.mp done
      obtain ⟨free,rfl⟩ := openAs_some opened
      exact opens free trivial rfl rfl rfl rfl id
  case closeClient fd remote => cases remote <;> cases done <;> exact closesClient rfl rfl rfl rfl id
  case closeRemote fd => cases done; exact closesRemote rfl rfl rfl rfl id
  case absent => cases done
  case exited => cases done
  case exit => cases done; exact goes rfl rfl rfl nofun
  case setRcvTimeo => cases done; exact goes rfl rfl rfl nofun
  case setSndTimeo => cases done; exact goes rfl rfl rfl nofun
  case writeRemote =>
    split at done
    · cases done; exact goes rfl rfl rfl nofun
    · split at done <;> cases done <;> exact goes rfl rfl rfl nofun
  case writeClient =>
    split at done
    · cases done; exact goes rfl rfl rfl nofun
    · split at done <;> cases done <;> exact goes rfl rfl rfl nofun
  case connect => split at done <;> cases done <;> exact goes rfl rfl rfl nofun
  case readRemote => split at done <;> cases done <;> exact goes rfl rfl rfl nofun
  all_goals split at done <;> cases done <;> exact goes rfl rfl rfl fun _ => trivial

/-! ### Steps of the loop -/

theorem client_of_main {k : Nat} (dealing : conn σ.main = some k) : held σ (.client k) = mainClient σ.main :=
  if_pos dealing

theorem cell_of_main {k : Nat} (dealing : conn σ.main = some k) : heldCell σ k = mainCell σ.main := if_pos dealing

/-- `main` goes on with its connection, or hands it over. -/
theorem Held.dealt (inv : Held σ) {k : Nat} (dealing : conn σ.main = some k)
    (after : ∀ j, conn σ'.main = some j → j = k ∧ σ'.handler k = .absent ∧ σ'.lost k = none)
    (stored : ∀ j fd arg, σ'.main = .pthreadCreate j fd arg → σ'.value arg = fd) (accepted : σ'.accepted = σ.accepted)
    (handlers : ∀ j, j ≠ k → σ'.handler j = σ.handler j) (lost : ∀ j, j ≠ k → σ'.lost j = σ.lost j)
    (values : ∀ j, handlerClient σ'.value (σ.lost j) (σ.handler j) = handlerClient σ.value (σ.lost j) (σ.handler j))
    (served : σ'.handler k ≠ .absent → σ'.lost k = none) (remote : handlerRemote (σ'.handler k) = none)
    (taken : σ'.descriptors.taken = σ.descriptors.taken)
    (descriptors : Balanced σ'.descriptors (Function.update (held σ) (.client k) (held σ' (.client k))))
    (cells : Balanced σ'.cells (Function.update (heldCell σ) k (heldCell σ' k))) : Held σ' := by
  obtain ⟨inside,absent,_⟩ := inv.current k dealing
  have notOther : ∀ j, j ≠ k → conn σ.main ≠ some j ∧ conn σ'.main ≠ some j := by
    refine fun j other => ⟨fun is => other ?_,fun is => other (after j is).1⟩
    exact Option.some.inj (is.symm.trans dealing)
  constructor
  case descriptors =>
    refine descriptors.congr fun s => ?_
    cases s with
    | client j =>
      by_cases isK : j = k
      · subst isK; rw [Function.update_self]
      · have other : Socket.client j ≠ .client k := by simpa using isK
        rw [Function.update_of_ne other,held,held,if_neg (notOther j isK).1,if_neg (notOther j isK).2,lost j isK,
          handlers j isK,values]
    | remote j =>
      rw [Function.update_of_ne (by simp),held,held]
      by_cases isK : j = k
      · subst isK; rw [remote,absent]; rfl
      · rw [handlers j isK]
  case cells =>
    refine cells.congr fun j => ?_
    by_cases isK : j = k
    · subst isK; rw [Function.update_self]
    · rw [Function.update_of_ne isK,heldCell,heldCell,if_neg (notOther j isK).1,if_neg (notOther j isK).2,
        handlers j isK]
  case current =>
    intro j is
    obtain ⟨rfl,rest⟩ := after j is
    exact ⟨accepted ▸ inside,rest⟩
  case stored => exact stored
  case fresh =>
    intro j late
    rw [accepted] at late
    have isNotK : j ≠ k := fun same => Nat.not_lt.mpr late (same ▸ inside)
    rw [handlers j isNotK,lost j isNotK]
    exact inv.fresh j late
  case clients =>
    intro j
    rw [taken,accepted]
    exact inv.clients j
  case served =>
    intro j isThere
    by_cases isK : j = k
    · subst isK; exact served isThere
    · rw [lost j isK]
      exact inv.served j (handlers j isK ▸ isThere)
  case remotes =>
    intro j
    rw [taken]
    refine ⟨(inv.remotes j).1,fun early => (inv.remotes j).2 ?_⟩
    by_cases isK : j = k
    · subst isK; rw [absent]; trivial
    · rwa [handlers j isK] at early

/-- The loop accepts a connection. -/
theorem Held.accepts (inv : Held σ) {fd : Nat} (waiting : σ.main = .accept) (free : σ.descriptors.owner fd = none)
    (handlers : σ'.handler = σ.handler) (main : σ'.main = .malloc σ.accepted fd)
    (rest : σ'.cells = σ.cells ∧ σ'.value = σ.value ∧ σ'.accepted = σ.accepted+1 ∧ σ'.lost = σ.lost)
    (descriptors : σ'.descriptors = σ.descriptors.take fd (.client σ.accepted)) : Held σ' := by
  obtain ⟨cells,value,accepted,lost⟩ := rest
  obtain ⟨absent,kept⟩ := inv.fresh σ.accepted (Nat.le_refl _)
  have noConn : ∀ j, conn σ.main ≠ some j := fun j is => by rw [waiting] at is; cases is
  have isConn : ∀ j, conn σ'.main = some j ↔ j = σ.accepted := fun j => by rw [main]; simp [conn,eq_comm]
  have none : held σ (.client σ.accepted) = none := by rw [held,if_neg (noConn _),absent]; exact kept
  constructor
  case descriptors =>
    rw [descriptors]
    refine (inv.descriptors.take free none).congr fun s => ?_
    cases s with
    | client j =>
      by_cases isK : j = σ.accepted
      · subst isK; rw [held,if_pos ((isConn _).mpr rfl),Function.update_self,main]; rfl
      · have other : Socket.client j ≠ .client σ.accepted := by simpa using isK
        rw [Function.update_of_ne other,held,held,if_neg (noConn j),if_neg (isK ∘ (isConn j).mp),value,lost,handlers]
    | remote j => rw [Function.update_of_ne (by simp),held,held,handlers]
  case cells =>
    rw [cells]
    refine inv.cells.congr fun j => ?_
    rw [heldCell,heldCell,if_neg (noConn j),handlers]
    split
    · rename_i is
      obtain rfl := (isConn j).mp is
      rw [main,absent]; rfl
    · rfl
  case current =>
    intro j is
    obtain rfl := (isConn j).mp is
    rw [accepted,handlers,lost]
    exact ⟨Nat.lt_succ_self _,absent,kept⟩
  case stored =>
    intro j fd arg is
    rw [main] at is
    cases is
  case fresh =>
    intro j late
    rw [handlers,lost]
    exact inv.fresh j (by omega)
  case clients =>
    intro j
    rw [descriptors,accepted]
    by_cases isK : j = σ.accepted
    · subst isK
      have before := inv.clients σ.accepted
      rw [if_neg (Nat.lt_irrefl _)] at before
      simp [Table.take,before]
    · have other : Socket.client j ≠ .client σ.accepted := by simpa using isK
      have same : j < σ.accepted+1 ↔ j < σ.accepted := by omega
      simp only [Table.take,Function.update_of_ne other,inv.clients,same]
  case served =>
    intro j isThere
    rw [handlers] at isThere
    rw [lost]
    exact inv.served j isThere
  case remotes =>
    intro j
    rw [descriptors,handlers]
    simpa [Table.take] using inv.remotes j

/-- No handler is to read the cell that `main` fills for another connection. -/
theorem Held.values (inv : Held σ) {k arg fd : Nat} (mine : heldCell σ k = some arg) (dealing : conn σ.main = some k)
    (j : Nat) : handlerClient (Function.update σ.value arg fd) (σ.lost j) (σ.handler j) =
      handlerClient σ.value (σ.lost j) (σ.handler j) := by
  cases its : σ.handler j with
  | loadArg other =>
    have there : σ.handler j ≠ .absent := fun absent => by rw [its] at absent; cases absent
    have theirs : heldCell σ j = some other := by rw [inv.cell_of_handler there,its]; rfl
    have notArg : other ≠ arg := by
      rintro rfl
      obtain rfl := inv.cells.unique mine theirs
      exact inv.not_current there dealing
    simp only [handlerClient,Function.update_of_ne notArg]
  | _ => rfl

/-- `main` goes on with the same connection. -/
theorem Held.deals (inv : Held σ) {k : Nat} (dealing : conn σ.main = some k) (still : conn σ'.main = some k)
    (stored : ∀ j fd arg, σ'.main = .pthreadCreate j fd arg → σ'.value arg = fd)
    (rest : σ'.accepted = σ.accepted ∧ σ'.handler = σ.handler ∧ σ'.lost = σ.lost)
    (values : ∀ j, handlerClient σ'.value (σ.lost j) (σ.handler j) = handlerClient σ.value (σ.lost j) (σ.handler j))
    (descriptors : σ'.descriptors = σ.descriptors) (client : mainClient σ'.main = mainClient σ.main)
    (cells : Balanced σ'.cells (Function.update (heldCell σ) k (mainCell σ'.main))) : Held σ' := by
  obtain ⟨accepted,handlers,lost⟩ := rest
  obtain ⟨_,absent,kept⟩ := inv.current k dealing
  refine inv.dealt dealing (fun j is => ?_) stored accepted (fun j _ => by rw [handlers]) (fun j _ => by rw [lost])
    values (fun isThere => ?_) ?_ (by rw [descriptors]) ?_ ?_
  · rw [still] at is
    cases is
    rw [handlers,lost]
    exact ⟨rfl,absent,kept⟩
  · exact absurd (handlers ▸ absent) isThere
  · rw [handlers,absent]; rfl
  · rw [descriptors]
    exact inv.descriptors.keep (by rw [client_of_main still,client_of_main dealing,client])
  · rw [cell_of_main still]
    exact cells

/-- `main` is done with its connection, whose handler is at `pc` now. -/
theorem Held.leaves (inv : Held σ) {k : Nat} {pc : HandlerPc} (dealing : conn σ.main = some k)
    (waiting : σ'.main = .accept) (handlers : σ'.handler = Function.update σ.handler k pc)
    (remote : handlerRemote pc = none) (rest : σ'.accepted = σ.accepted ∧ σ'.value = σ.value)
    (lost : ∀ j, j ≠ k → σ'.lost j = σ.lost j) (served : pc ≠ .absent → σ'.lost k = none)
    (taken : σ'.descriptors.taken = σ.descriptors.taken) (descriptors : Balanced σ'.descriptors
      (Function.update (held σ) (.client k) (handlerClient σ.value (σ'.lost k) pc)))
    (cells : Balanced σ'.cells (Function.update (heldCell σ) k (handlerCell pc))) : Held σ' := by
  obtain ⟨accepted,value⟩ := rest
  have own : σ'.handler k = pc := by rw [handlers,Function.update_self]
  have noConn : ∀ j, conn σ'.main ≠ some j := fun j is => by rw [waiting] at is; cases is
  refine inv.dealt dealing (fun j is => absurd is (noConn j)) (fun j fd arg is => ?_) accepted (fun j other => ?_) lost
    (fun j => by rw [value]) (fun isThere => served (own ▸ isThere)) (by rw [own,remote]) taken ?_ ?_
  · rw [waiting] at is; cases is
  · rw [handlers,Function.update_of_ne other]
  · rw [held,if_neg (noConn k),own,value]
    exact descriptors
  · rw [heldCell,if_neg (noConn k),own]
    exact cells

theorem main_held (inv : Held σ) {result : Int} (done : acceptLoop σ result = some σ') : Held σ' := by
  unfold acceptLoop at done
  cases here : σ.main with
  | accept =>
    simp only [here] at done
    split at done
    · cases done; exact inv
    · obtain ⟨σ1,opened,rfl⟩ := Option.map_eq_some_iff.mp done
      obtain ⟨free,rfl⟩ := openAs_some opened
      exact inv.accepts here free rfl rfl ⟨rfl,rfl,rfl,rfl⟩ rfl
  | malloc k fd =>
    have dealing : conn σ.main = some k := by rw [here]; rfl
    obtain ⟨_,absent,_⟩ := inv.current k dealing
    have mine : held σ (.client k) = some fd := by rw [client_of_main dealing,here]; rfl
    have noCell : heldCell σ k = none := by rw [cell_of_main dealing,here]; rfl
    simp only [here] at done
    split at done
    · cases done
      refine inv.leaves dealing rfl (Function.update_eq_self k σ.handler).symm (by rw [absent]; rfl) ⟨rfl,rfl⟩
        (fun j other => Function.update_of_ne other _ _) (fun there => absurd absent there) rfl ?_ ?_
      · have still : handlerClient σ.value (Function.update σ.lost k (some fd) k) (σ.handler k) = held σ
          (.client k) := by
          rw [absent,Function.update_self,mine]; rfl
        exact inv.descriptors.keep still
      · exact inv.cells.keep (by rw [absent,noCell]; rfl)
    · split at done
      · rename_i new
        cases done
        exact inv.deals dealing rfl nofun ⟨rfl,rfl,rfl⟩ (fun _ => rfl) rfl (by rw [here]; rfl)
          (inv.cells.take new.2 noCell)
      · cases done
  | storeArg k fd arg =>
    have dealing : conn σ.main = some k := by rw [here]; rfl
    have mine : heldCell σ k = some arg := by rw [cell_of_main dealing,here]; rfl
    simp only [here] at done
    cases done
    refine inv.deals dealing rfl (fun j fd' arg' is => ?_) ⟨rfl,rfl,rfl⟩ (inv.values mine dealing) rfl
      (by rw [here]; rfl) (inv.cells.keep mine.symm)
    cases is
    exact Function.update_self ..
  | pthreadCreate k fd arg =>
    have dealing : conn σ.main = some k := by rw [here]; rfl
    have mine : held σ (.client k) = some fd := by rw [client_of_main dealing,here]; rfl
    have mineCell : heldCell σ k = some arg := by rw [cell_of_main dealing,here]; rfl
    obtain ⟨_,_,kept⟩ := inv.current k dealing
    simp only [here] at done
    split at done
    · cases done
      exact inv.deals dealing rfl nofun ⟨rfl,rfl,rfl⟩ (fun _ => rfl) rfl (by rw [here]; rfl)
        (inv.cells.keep mineCell.symm)
    · cases done
      have still : handlerClient σ.value (σ.lost k) (.loadArg arg) = held σ (.client k) := by
        rw [mine,handlerClient,inv.stored k fd arg here]
      exact inv.leaves dealing rfl rfl rfl ⟨rfl,rfl⟩ (fun _ _ => rfl) (fun _ => kept) rfl (inv.descriptors.keep still)
        (inv.cells.keep mineCell.symm)
  | freeArg k fd arg =>
    have dealing : conn σ.main = some k := by rw [here]; rfl
    have mineCell : heldCell σ k = some arg := by rw [cell_of_main dealing,here]; rfl
    simp only [here] at done
    cases done
    exact inv.deals dealing rfl nofun ⟨rfl,rfl,rfl⟩ (fun _ => rfl) rfl (by rw [here]; rfl) (inv.cells.release mineCell)
  | closeClient k fd =>
    have dealing : conn σ.main = some k := by rw [here]; rfl
    obtain ⟨_,absent,kept⟩ := inv.current k dealing
    have mine : held σ (.client k) = some fd := by rw [client_of_main dealing,here]; rfl
    have noCell : heldCell σ k = none := by rw [cell_of_main dealing,here]; rfl
    simp only [here] at done
    cases done
    refine inv.leaves dealing rfl (Function.update_eq_self k σ.handler).symm (by rw [absent]; rfl) ⟨rfl,rfl⟩
      (fun _ _ => rfl) (fun _ => kept) rfl ?_ ?_
    · have gone : handlerClient σ.value (σ.lost k) (σ.handler k) = none := by rw [absent]; exact kept
      have released := inv.descriptors.release mine
      rwa [← gone] at released
    · exact inv.cells.keep (by rw [absent,noCell]; rfl)

theorem step_held {a : Act} (inv : Held σ) (taken : step σ a = some σ') : Held σ' := by
  cases a with
  | main result => exact main_held inv taken
  | handler k result => exact handler_held inv taken

theorem run_held {acts : List Act} (ran : run step start acts = some σ) : Held σ :=
  run_invariant (fun _ _ _ inv taken => step_held inv taken) ran start_held

/-! ### What is conserved -/

/-- The descriptor that the next call of the loop gets, and the socket it is meant for. -/
def mainUses : MainPc → Option (Nat × Socket)
  | .closeClient k fd => some (fd,.client k)
  | _ => none

def handlerUses (k : Nat) : HandlerPc → Option (Nat × Socket)
  | .read fd | .writeClient fd _ _ _ | .closeClient fd _ => some (fd,.client k)
  | .setRcvTimeo _ _ fd | .setSndTimeo _ _ fd | .connect _ _ fd | .writeRemote _ fd _ _ | .readRemote _ fd
  | .closeRemote fd => some (fd,.remote k)
  | _ => none

/-- The descriptor is the one of the socket, and nobody has closed it. -/
def Open (σ : State) (fd : Nat) (s : Socket) : Prop :=
  σ.descriptors.owner fd = some s ∧ σ.descriptors.released s = 0

def Running (pc : HandlerPc) : Prop := pc ≠ .absent ∧ pc ≠ .exited

/-- The thread has not closed the descriptor of the client yet. -/
def Serving : HandlerPc → Prop
  | .absent | .closeRemote _ | .exit | .exited => False
  | _ => True

/-- Nobody is going to do anything for the connection any more. -/
def Over (σ : State) (k : Nat) : Prop := conn σ.main ≠ some k ∧ ¬ Running (σ.handler k)

/-- The descriptors are conserved for the `counted` connections: what is closed is
    closed once, and has been when the connection is over; nothing is used after
    its close; and while `main` waits in `accept` the clients' descriptors are open
    whose handlers are `busy`. -/
structure Conserved (counted : Nat → Prop) (busy : HandlerPc → Prop) (σ : State) : Prop where
  client : ∀ k, k < σ.accepted → counted k →
    σ.descriptors.released (.client k) ≤ 1 ∧ (Over σ k → σ.descriptors.released (.client k) = 1)
  remote : ∀ k, σ.descriptors.taken (.remote k) ≤ 1 ∧
    σ.descriptors.released (.remote k) ≤ σ.descriptors.taken (.remote k) ∧
    (Over σ k → σ.descriptors.released (.remote k) = σ.descriptors.taken (.remote k))
  main : ∀ fd s, mainUses σ.main = some (fd,s) → Open σ fd s
  handler : ∀ k fd s, handlerUses k (σ.handler k) = some (fd,s) → Open σ fd s
  loop : σ.main = .accept → ∀ k, counted k → ((∃ fd, σ.descriptors.owner fd = some (.client k)) ↔ busy (σ.handler k))

theorem Held.taken_le (inv : Held σ) (s : Socket) : σ.descriptors.taken s ≤ 1 := by
  cases s with
  | client k => rw [inv.clients]; split <;> decide
  | remote k => exact (inv.remotes k).1

/-- What is held is open. -/
theorem Held.isOpen (inv : Held σ) {fd : Nat} {s : Socket} (mine : held σ s = some fd) : Open σ fd s := by
  refine ⟨(inv.descriptors.owner fd s).mpr mine,?_⟩
  have count := inv.descriptors.count s
  have few := inv.taken_le s
  rw [mine] at count
  simp only [Option.isSome_some,if_true] at count
  omega

theorem Held.owned_iff (inv : Held σ) (s : Socket) :
    (∃ fd, σ.descriptors.owner fd = some s) ↔ (held σ s).isSome := by
  simp only [inv.descriptors.owner,Option.isSome_iff_exists]

theorem serving_iff {value : Nat → Nat} {pc : HandlerPc} : (handlerClient value none pc).isSome ↔ Serving pc := by
  cases pc <;> simp [handlerClient,Serving]

/-- When a connection is over, only a lost descriptor is held for it. -/
theorem Held.over (inv : Held σ) {k : Nat} (finished : Over σ k) :
    held σ (.client k) = σ.lost k ∧ held σ (.remote k) = none := by
  obtain ⟨notCurrent,still⟩ := finished
  rw [held,if_neg notCurrent,held]
  by_cases absent : σ.handler k = .absent
  · rw [absent]; exact ⟨rfl,rfl⟩
  · have exited : σ.handler k = .exited := by
      by_contra other
      exact still ⟨absent,other⟩
    rw [inv.served k absent,exited]
    exact ⟨rfl,rfl⟩

theorem Held.conserved (inv : Held σ) : Conserved (σ.lost · = none) Serving σ := by
  constructor
  case client =>
    intro k inside kept
    have count := inv.descriptors.count (.client k)
    rw [inv.clients,if_pos inside] at count
    refine ⟨by omega,fun finished => ?_⟩
    rw [(inv.over finished).1,kept] at count
    simpa using count.symm
  case remote =>
    intro k
    have count := inv.descriptors.count (.remote k)
    refine ⟨(inv.remotes k).1,by omega,fun finished => ?_⟩
    rw [(inv.over finished).2] at count
    simpa using count.symm
  case main =>
    intro fd s uses
    apply inv.isOpen
    cases here : σ.main <;> rw [here] at uses <;> cases uses
    simp only [held,here,conn,mainClient,if_true]
  case handler =>
    intro k fd s uses
    apply inv.isOpen
    have there : σ.handler k ≠ .absent := fun absent => by rw [absent] at uses; cases uses
    have client := inv.client_of_handler there
    have remote : held σ (.remote k) = handlerRemote (σ.handler k) := rfl
    cases here : σ.handler k <;> rw [here] at uses client remote <;> cases uses <;> assumption
  case loop =>
    intro waiting k kept
    rw [inv.owned_iff,held,if_neg (by rw [waiting]; nofun),kept]
    exact serving_iff

/-- In every run the descriptors are conserved, but for the connections for which
    there was no memory. -/
theorem descriptors_conserved {acts : List Act} (ran : run step start acts = some σ) :
    Conserved (σ.lost · = none) Serving σ := (run_held ran).conserved

/-- A connection that is served until the remote host closes its own. Its number is
    given out again for the next connection, for which there is no thread. -/
def servedRun : List Act :=
  [.main 4,.main 64,.main 0,.main 0,.handler 0 0,.handler 0 0,.handler 0 20,.handler 0 0,.handler 0 0,.handler 0 0,
    .handler 0 5,.handler 0 0,.handler 0 0,.handler 0 0,.handler 0 12,.handler 0 8,.handler 0 30,.handler 0 30,
    .handler 0 0,.handler 0 0,.main 4,.main 64,.main 0,.main 11,.main 0,.main 0,.handler 0 0,.handler 0 0]

theorem conserved_served : ∃ σ, run step start servedRun = some σ ∧ σ.accepted = 2 ∧
    Conserved (σ.lost · = none) Serving σ := ⟨_,rfl,rfl,@descriptors_conserved _ servedRun rfl⟩

/-- The thread has closed the descriptor, on which it could read nothing, and has
    not returned yet. -/
def closedRun : List Act := [.main 4,.main 64,.main 0,.main 0,.handler 0 0,.handler 0 0,.handler 0 0,.handler 0 0]

/-- There is no memory for the cell. -/
def lostRun : List Act := [.main 4,.main 0]

theorem not_conserved : (∃ σ, run step start closedRun = some σ ∧ ¬ Conserved (fun _ => True) Running σ) ∧
    ∃ σ, run step start lostRun = some σ ∧ ¬ Conserved (fun _ => True) Running σ := by
  refine ⟨⟨_,rfl,fun conserved => ?_⟩,⟨_,rfl,fun conserved => ?_⟩⟩
  · -- The thread is still running, but descriptor 4, the only one it had, is closed.
    obtain ⟨fd,isOpen⟩ := (conserved.loop rfl 0 trivial).mpr ⟨nofun,nofun⟩
    have closed : ∀ n, Function.update (Function.update (fun _ => none) 4 (some (Socket.client 0))) 4 none n =
        (none : Option Socket) := fun n => by by_cases isFour : n = 4 <;> simp [isFour]
    exact absurd ((closed fd).symm.trans isOpen) nofun
  · have released := (conserved.client 0 Nat.zero_lt_one trivial).2 ⟨nofun,fun running => running.1 rfl⟩
    exact absurd released (by decide)

/-- A lost descriptor stays open. -/
theorem lost_stays_open {acts : List Act} (ran : run step start acts = some σ) {k fd : Nat}
    (lost : σ.lost k = some fd) : Open σ fd (.client k) := by
  have inv := run_held ran
  have notCurrent : conn σ.main ≠ some k := fun is => by
    rw [(inv.current k is).2.2] at lost
    cases lost
  have absent : σ.handler k = .absent := by
    by_contra there
    rw [inv.served k there] at lost
    cases lost
  apply inv.isOpen
  rw [held,if_neg notCurrent,absent]
  exact lost

end Os5Sem.Descriptors
