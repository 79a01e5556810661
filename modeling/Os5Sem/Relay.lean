import Os5Sem.Handler
import Os5Sem.Transition

/-!
The loop of `handle_client` that relays the answer of the remote server, one system
call at a time, for any results of `read` and of `write`. What the client has
accepted is a prefix of what the server has sent (`relays_in_order`), and every
result of `relayLoop` is that of a run (`relayLoop_run`).
-/
namespace Os5Sem.Relay
open Os5Sem.CMemory Os5Sem.Handler
open Os5Sem.Occurrences (overwrite)

/-- The next system call, or how the loop ended. -/
inductive Pc
  | read
  | write (remote_read client_sent : Nat)
  | remoteClosed
  | remoteFailed
  | relayFailed
deriving DecidableEq

/-- The last two fields only record the run: the bytes that were read from the
    remote server, and those that the client has accepted. -/
structure State where
  buffer : List Byte
  pc : Pc
  received : List Byte
  accepted : List Byte

def start (buffer : List Byte) : State := ⟨buffer,.read,[],[]⟩

/-- The result of a system call: the bytes that `read` returns, none of them for 0
    and no list for -1, or the number that `write` returns. -/
inductive Act
  | read (chunk : Option (List Byte))
  | write (n : Int)
deriving DecidableEq

/-- The test of the inner loop. -/
def next (remote_read client_sent : Nat) : Pc :=
  if client_sent < remote_read then .write remote_read client_sent else .read

/-- A call takes no more than it is asked to. -/
def step (σ : State) : Act → Option State
  | .read chunk =>
    if σ.pc = .read then
      match chunk with
      | none => some { σ with pc := .remoteFailed }
      | some chunk =>
        if buffSize < chunk.length then none
        else if chunk = [] then some { σ with pc := .remoteClosed }
        else
          some
            { σ with
              buffer := overwrite σ.buffer 0 chunk
              pc := next chunk.length 0
              received := σ.received ++ chunk }
    else none
  | .write n =>
    match σ.pc with
    | .write remote_read client_sent =>
      if (remote_read-client_sent : Nat) < n then none
      else if n ≤ 0 then some { σ with pc := .relayFailed }
      else
        some
          { σ with
            pc := next remote_read (client_sent + n.toNat)
            accepted := σ.accepted ++ slice σ.buffer client_sent n.toNat }
    | _ => none

variable {σ σ' : State}

/-! ### What the client has accepted -/

/-- What is left of the chunk in the buffer is what the client lacks. -/
def Relayed (σ : State) : Prop :=
  match σ.pc with
  | .read | .remoteClosed | .remoteFailed => σ.accepted = σ.received
  | .write remote_read client_sent =>
    client_sent < remote_read ∧
      σ.received = σ.accepted ++ slice σ.buffer client_sent (remote_read-client_sent)
  | .relayFailed => σ.accepted <+: σ.received

theorem relayed_next {remote_read client_sent : Nat} (here : σ.pc = next remote_read client_sent)
    (lacks : σ.received = σ.accepted ++ slice σ.buffer client_sent (remote_read-client_sent)) : Relayed σ := by
  unfold next at here
  split at here
  · rename_i left
    simp only [Relayed,here]
    exact ⟨left,lacks⟩
  · rename_i all
    simp only [Relayed,here]
    rw [lacks,Nat.sub_eq_zero_of_le (Nat.not_lt.mp all)]
    simp [slice]

theorem slice_split (buffer : List Byte) {p m n : Nat} (part : m ≤ n) :
    slice buffer p n = slice buffer p m ++ slice buffer (p+m) (n-m) := by
  rw [slice,slice,slice,← List.drop_drop,← List.take_add,Nat.add_sub_cancel' part]

theorem relayed_read {chunk : Option (List Byte)} (relayed : Relayed σ) (done : step σ (.read chunk) = some σ') :
    Relayed σ' ∧ σ.accepted = σ.received ∧ σ'.received = σ.received ++ chunk.getD [] := by
  simp only [step] at done
  split at done
  · rename_i here
    have all : σ.accepted = σ.received := by rwa [Relayed,here] at relayed
    cases chunk with
    | none => cases done; exact ⟨all,all,(List.append_nil _).symm⟩
    | some chunk =>
      simp only at done
      split at done
      · cases done
      · split at done <;> cases done
        · rename_i empty
          subst empty
          exact ⟨all,all,(List.append_nil _).symm⟩
        · refine ⟨relayed_next rfl ?_,all,rfl⟩
          simp [all,slice,overwrite]
  · cases done

theorem relayed_write {n : Int} (relayed : Relayed σ) (done : step σ (.write n) = some σ') :
    Relayed σ' ∧ σ'.received = σ.received := by
  simp only [step] at done
  split at done
  · rename_i remote_read client_sent here
    obtain ⟨left,lacks⟩ : client_sent < remote_read ∧
        σ.received = σ.accepted ++ slice σ.buffer client_sent (remote_read-client_sent) :=
          by rwa [Relayed,here] at relayed
    split at done
    · cases done
    · rename_i most
      split at done <;> cases done
      · exact ⟨⟨_,lacks.symm⟩,rfl⟩
      · refine ⟨relayed_next rfl ?_,rfl⟩
        have part : n.toNat ≤ remote_read-client_sent := by omega
        show σ.received = _ ++ slice σ.buffer client_sent n.toNat ++ _
        rw [lacks,slice_split σ.buffer part,List.append_assoc,Nat.sub_add_eq]
  · cases done

/-- The bytes that a call reads from the remote server. -/
def Act.chunk : Act → List Byte
  | .read chunk => chunk.getD []
  | .write _ => []

theorem relayed_step {a : Act} (relayed : Relayed σ) (done : step σ a = some σ') :
    Relayed σ' ∧ σ'.received = σ.received ++ a.chunk := by
  cases a with
  | read chunk =>
    obtain ⟨kept,_,received⟩ := relayed_read relayed done
    exact ⟨kept,received⟩
  | write n =>
    obtain ⟨kept,received⟩ := relayed_write relayed done
    exact ⟨kept,received.trans (List.append_nil _).symm⟩

theorem relayed_run {acts : List Act} (ran : Transition.run step σ acts = some σ') (relayed : Relayed σ) :
    Relayed σ' ∧ σ'.received = σ.received ++ acts.flatMap Act.chunk := by
  induction acts generalizing σ with
  | nil => cases ran; exact ⟨relayed,(List.append_nil _).symm⟩
  | cons a acts ih =>
    obtain ⟨mid,done,ran⟩ := Transition.run_cons.mp ran
    obtain ⟨kept,received⟩ := relayed_step relayed done
    obtain ⟨last,all⟩ := ih ran kept
    exact ⟨last,by rw [all,received,List.append_assoc,List.flatMap_cons]⟩

theorem prefix_of_relayed (relayed : Relayed σ) : σ.accepted <+: σ.received := by
  unfold Relayed at relayed
  split at relayed
  · exact ⟨[],by rw [relayed,List.append_nil]⟩
  · exact ⟨[],by rw [relayed,List.append_nil]⟩
  · exact ⟨[],by rw [relayed,List.append_nil]⟩
  · exact ⟨_,relayed.2.symm⟩
  · exact relayed

/-- At every moment the client has accepted a prefix of what the remote server has
    sent, and all of it when the server has ended the loop, or is about to be read
    from again. -/
theorem relays_in_order {buffer : List Byte} {acts : List Act}
    (ran : Transition.run step (start buffer) acts = some σ) :
    σ.accepted <+: acts.flatMap Act.chunk ∧
      (σ.pc = .remoteClosed ∨ σ.pc = .remoteFailed → σ.accepted = acts.flatMap Act.chunk) ∧
      ∀ chunk, (step σ (.read chunk)).isSome → σ.accepted = acts.flatMap Act.chunk := by
  obtain ⟨relayed,received⟩ := relayed_run ran (show Relayed (start buffer) from rfl)
  rw [show acts.flatMap Act.chunk = σ.received from received.symm]
  refine ⟨prefix_of_relayed relayed,?_,?_⟩
  · rintro (closed | failed)
    · rwa [Relayed,closed] at relayed
    · rwa [Relayed,failed] at relayed
  · intro chunk again
    obtain ⟨σ',done⟩ := Option.isSome_iff_exists.mp again
    exact (relayed_read relayed done).2.1

/-- The client takes a part of the first chunk and the rest of it; then the server
    closes the connection. -/
def twoWrites : List Act := [.read (some [1,2,3]),.write 2,.write 1,.read (some [])]

theorem relays_in_order_twoWrites :
    ((Transition.run step (start (array buffSize)) twoWrites).getD (start [])).accepted = [1,2,3] :=
  (@relays_in_order _ (array buffSize) twoWrites rfl).2.1 (.inl rfl)

/-! ### The loop as a function of the results -/

/-- Where the inner loop leads. -/
def Reaches : Progress → Pc → Prop
  | .waiting,.write _ _ | .failed,.relayFailed | .done,.read => True
  | _,_ => False

/-- What the end of the loop is in `relayLoop`. -/
def ending : Pc → End
  | .read | .write _ _ => .relaying
  | .remoteClosed => .remoteClosed
  | .remoteFailed => .remoteFailed
  | .relayFailed => .relayFailed

theorem ending_of_waiting {pc : Pc} (reaches : Reaches .waiting pc) : ending pc = .relaying := by
  cases pc <;> first | rfl | exact reaches.elim

theorem ending_of_failed {pc : Pc} (reaches : Reaches .failed pc) : ending pc = .relayFailed := by
  cases pc <;> first | rfl | exact reaches.elim

theorem read_of_done {pc : Pc} (reaches : Reaches .done pc) : pc = .read := by
  cases pc <;> first | rfl | exact reaches.elim

theorem reaches_next (total sent : Nat) : Reaches (if sent < total then .waiting else .done) (next total sent) := by
  unfold next
  split <;> trivial

theorem writeLoop_run {total sent : Nat} (results : List Int) (here : σ.pc = next total sent) :
    ∃ acts σ', Transition.run step σ acts = some σ' ∧ σ'.buffer = σ.buffer ∧
      σ'.accepted = σ.accepted ++ (writeLoop σ.buffer total sent results).1 ∧
      Reaches (writeLoop σ.buffer total sent results).2.1 σ'.pc := by
  induction results generalizing sent σ with
  | nil => exact ⟨[],σ,rfl,rfl,(List.append_nil _).symm,here ▸ reaches_next total sent⟩
  | cons n results ih =>
    by_cases left : sent < total
    · rw [next,if_pos left] at here
      by_cases failed : n ≤ 0
      · have most : ¬ ((total-sent : Nat) : Int) < n := by omega
        refine ⟨[.write n],{ σ with pc := .relayFailed },?_,rfl,?_,?_⟩
        · simp only [Transition.run,step,here,if_neg most,if_pos failed]
          rfl
        · simp [writeLoop,left,failed]
        · simp [writeLoop,left,failed,Reaches]
      · have most : ¬ ((total-sent : Nat) : Int) < (min n.toNat (total-sent) : Nat) := by omega
        have some' : ¬ ((min n.toNat (total-sent) : Nat) : Int) ≤ 0 := by omega
        have done : step σ (.write (min n.toNat (total-sent) : Nat)) =
            some { σ with
              pc := next total (sent + min n.toNat (total-sent))
              accepted := σ.accepted ++ slice σ.buffer sent (min n.toNat (total-sent)) } := by
          simp only [step,here,if_neg most,if_neg some',Int.toNat_natCast]
        obtain ⟨acts,σ',ran,buffer,accepted,reaches⟩ := @ih
          { σ with
            pc := next total (sent + min n.toNat (total-sent))
            accepted := σ.accepted ++ slice σ.buffer sent (min n.toNat (total-sent)) }
              (sent + min n.toNat (total-sent)) rfl
        refine ⟨_ :: acts,σ',Transition.run_cons.mpr ⟨_,done,ran⟩,buffer,?_,?_⟩
        · rw [accepted]
          simp [writeLoop,left,failed]
        · simpa [writeLoop,left,failed] using reaches
    · rw [next,if_neg left] at here
      refine ⟨[],σ,rfl,rfl,?_,?_⟩
      · simp [writeLoop,left]
      · simp [writeLoop,left,here,Reaches]

/-- What `relayLoop` computes is the result of a run. -/
theorem relayLoop_run (reads : List (Option (List Byte))) (results : List Int) (here : σ.pc = .read) :
    ∃ acts σ', Transition.run step σ acts = some σ' ∧
      σ'.accepted = σ.accepted ++ (relayLoop σ.buffer reads results).1 ∧
      ending σ'.pc = (relayLoop σ.buffer reads results).2 := by
  induction reads generalizing σ results with
  | nil => exact ⟨[],σ,rfl,(List.append_nil _).symm,by rw [here]; rfl⟩
  | cons chunk reads ih =>
    cases chunk with
    | none =>
      refine ⟨[.read none],{ σ with pc := .remoteFailed },?_,(List.append_nil _).symm,rfl⟩
      simp only [Transition.run,step,if_pos here]
      rfl
    | some chunk =>
      have fits : ¬ buffSize < (chunk.take buffSize).length := by
        rw [List.length_take]
        omega
      by_cases empty : chunk.take buffSize = []
      · refine ⟨[.read (some [])],{ σ with pc := .remoteClosed },?_,?_,?_⟩
        · simp only [Transition.run,step,if_pos here]
          rfl
        · simp [relayLoop,empty]
        · simp [relayLoop,empty,ending]
      · let τ : State :=
          { σ with
            buffer := overwrite σ.buffer 0 (chunk.take buffSize)
            pc := next (chunk.take buffSize).length 0
            received := σ.received ++ chunk.take buffSize }
        have done : step σ (.read (some (chunk.take buffSize))) = some τ := by
          simp only [step,if_pos here,if_neg fits,if_neg empty]
          rfl
        obtain ⟨acts,mid,ran,buffer,accepted,reaches⟩ := @writeLoop_run τ _ _ results rfl
        rw [relayLoop]
        simp only [if_neg empty]
        rcases here' : writeLoop τ.buffer (chunk.take buffSize).length 0 results with ⟨sent,progress,left⟩
        rw [here'] at accepted reaches
        rw [show overwrite σ.buffer 0 (chunk.take buffSize) = τ.buffer from rfl]
        have started := Transition.run_cons.mpr ⟨τ,done,ran⟩
        cases progress with
        | waiting => exact ⟨_,mid,started,accepted,ending_of_waiting reaches⟩
        | failed => exact ⟨_,mid,started,accepted,ending_of_failed reaches⟩
        | done =>
          obtain ⟨acts',σ',ran',accepted',ended⟩ := @ih mid left (read_of_done reaches)
          rw [buffer] at accepted' ended
          refine ⟨_,σ',Transition.run_append started ran',?_,ended⟩
          rw [accepted',accepted,List.append_assoc]

end Os5Sem.Relay
