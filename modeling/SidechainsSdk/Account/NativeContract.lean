/-
Contracts that are part of the node (`NativeSmartContractMsgProcessor`): a message to one of them runs a command on the state
database under `StateTransition.invoke`, which reverts the database when the command fails. `κ` is what the database holds
besides the accounts.

The gas of a command is taken off at once: one that runs out of it is reverted wherever that happens. The write protection
of read-only invocations is left out; it only makes more commands fail.

- `step_cases`: a message has either run its command to the end, or left the database as it was.
- `run_induction`: what one successful command keeps, with the record of what was accepted, holds after any messages.
-/
import Mathlib.Tactic
import SidechainsSdk.Core.Fallible
import SidechainsSdk.Account.StateTransition

namespace SidechainsSdk.Account.NativeContract

open Fallible
open SidechainsSdk.Account.StateTransition
  (StateDb Invocation Prog MessageProcessor Machine Outcome invoke runProg setDb onCallerGas_view invoke_cases)

variable {κ : Type}

/-- commands and their parts -/
abbrev Command (κ : Type) := Fallible Exc (StateDb κ)

def subBalance (address : Address) (amount : ℤ) : Command κ Unit := do
  if amount.sign = 0 then pure ()
  else
    throwIf (amount.sign < 0) (.executionFailed "cannot subtract negative amount from balance")
    modify fun db => db.moveBalance address (-amount)

theorem subBalance_ok {a : Address} {amount : ℤ} {db db' : StateDb κ} (h : exec (subBalance a amount) db = (.ok (), db')) :
    db' = db.moveBalance a (-amount) := by
  unfold subBalance at h
  split_ifs at h with hzero
  · have hamount : amount = 0 := Int.sign_eq_zero_iff_zero.1 hzero
    obtain ⟨-, rfl⟩ := Prod.mk.inj h
    simp [hamount, StateDb.moveBalance]
  · simp only [exec_throwIf_bind_ok, exec_modify, Prod.mk.injEq, true_and] at h
    exact h.2.symm

/-- a result, or an exception that leaves a failed receipt: any other one makes the whole message invalid -/
def Handled {α : Type} (r : Except Exc α) : Prop := FailsOnly (fun e => e.isExecutionFailed = true) r

section Handled

variable {S α β : Type}

instance (r : Except Exc α) : Decidable (Handled r) :=
  match r with
  | .ok _ => isTrue trivial
  | .error e => inferInstanceAs (Decidable (e.isExecutionFailed = true))

@[simp] theorem handled_ok (a : α) : Handled (.ok a : Except Exc α) := trivial

theorem handled_error (e : Exc) : Handled (.error e : Except Exc α) ↔ e.isExecutionFailed = true := Iff.rfl

@[simp] theorem handled_reverted (message : String) (data : Octets) :
    Handled (.error (.executionReverted message data) : Except Exc α) := rfl

theorem handled_bind {x : Except Exc α} {f : α → Except Exc β} :
    Handled (x >>= f) ↔ Handled x ∧ ∀ a, x = .ok a → Handled (f a) :=
  failsOnly_bind

theorem handled_orThrow_bind {x : Except Exc α} {f : α → Fallible Exc S β} {s : S} :
    Handled (exec (orThrow x >>= f) s).1 ↔ Handled x ∧ ∀ a, x = .ok a → Handled (exec (f a) s).1 :=
  failsOnly_exec_orThrow_bind

/-- a guard that reverts -/
theorem handled_throwIf_bind {c : Prop} [Decidable c] {message : String} {data : Octets} {f : Unit → Fallible Exc S α}
    {s : S} :
    Handled (exec (throwIf c (.executionReverted message data) >>= f) s).1 ↔ (¬ c → Handled (exec (f ()) s).1) :=
  failsOnly_exec_throwIf_bind rfl

/-- every exception is of another kind -/
def Unhandled {α : Type} (r : Except Exc α) : Prop := FailsOnly (fun e => e.isExecutionFailed = false) r

theorem Unhandled.handled_iff {r : Except Exc α} (h : Unhandled r) : Handled r ↔ ∃ a, r = .ok a := by
  cases r with
  | ok a => simp
  | error e =>
    have he : e.isExecutionFailed = false := h
    rw [handled_error, he]
    simp

theorem Unhandled.bind {x : Except Exc α} {f : α → Except Exc β} (hx : Unhandled x)
    (hf : ∀ a, x = .ok a → Unhandled (f a)) :
    Unhandled (x >>= f) :=
  failsOnly_bind.2 ⟨hx, hf⟩

end Handled

/-- `MsgProcessorInputDecoder`: the exceptions of a decoder are trapped -/
def decodeInput {α : Type} (decode : Octets → Except String α) (data : Octets) : Except Exc α :=
  match decode data with
  | .ok input => .ok input
  | .error message => .error (.executionReverted ("Could not decode input params: " ++ message) [])

@[simp] theorem handled_decodeInput {α : Type} (decode : Octets → Except String α) (data : Octets) :
    Handled (decodeInput decode data) := by
  unfold decodeInput
  split
  · exact handled_ok _
  · exact handled_reverted _ _

/-- a message, with what the contract does with it -/
structure Request (κ : Type) where
  inv : Invocation
  command : Command κ Octets
  gasCost : StateDb κ → ℤ

/-- the contracts start no invocations of their own -/
def noCalls (inv : Invocation) (m : Machine κ) : Outcome κ :=
  (.error (.other "no nested invocation"), inv.gasPool, m)

/-- a command as the program of a message processor -/
def prog (r : Request κ) : Prog κ :=
  .read fun m => .subGas (r.gasCost m.view.stateDb) fun
    | .error e => .throw e
    | .ok _ =>
      .write (fun db => (exec r.command db).2)
        (match (exec r.command m.view.stateDb).1 with
          | .ok output => .ret output
          | .error e => .throw e)

/-- one message under `StateTransition.invoke` -/
def request (m : Machine κ) (r : Request κ) : Outcome κ :=
  invoke noCalls ⟨fun _ _ _ => .ok true, fun _ => prog r⟩ r.inv m

/-- the state after it; an exception that is no execution failure makes the whole message invalid, and `transition`
rolls it back -/
def step (m : Machine κ) (r : Request κ) : Machine κ :=
  let o := request m r
  match o.1 with
  | .ok _ => o.2.2
  | .error e => if e.isExecutionFailed then o.2.2 else setDb o.2.2 m.view.stateDb

/-- a program that succeeds has run its command on the database it found -/
theorem runProg_prog {r : Request κ} {m m' : Machine κ} {out : Octets} (h : runProg noCalls (prog r) m = (.ok out, m')) :
    exec r.command m.view.stateDb = (.ok out, m'.view.stateDb) := by
  simp only [prog, runProg] at h
  have hview := onCallerGas_view (·.subGas (r.gasCost m.view.stateDb)) m
  rcases hgas : StateTransition.onCallerGas (·.subGas (r.gasCost m.view.stateDb)) m with ⟨result, m1⟩
  rw [hgas] at h hview
  cases result with
  | error e => simp [runProg] at h
  | ok u =>
    have hview1 : m1.view = m.view := hview
    simp only [runProg, hview1] at h
    rcases hexec : exec r.command m.view.stateDb with ⟨result, db'⟩
    rw [hexec] at h
    cases result with
    | error e => simp [runProg] at h
    | ok output =>
      obtain ⟨hout, rfl⟩ := Prod.mk.inj h
      rw [Except.ok.inj hout]
      rfl

/-- the message is accepted in this state -/
def Accepted (m : Machine κ) (r : Request κ) : Prop := ∃ out, (request m r).1 = .ok out

instance (m : Machine κ) (r : Request κ) : Decidable (Accepted m r) :=
  match h : (request m r).1 with
  | .ok out => isTrue ⟨out, h⟩
  | .error _ => isFalse fun ⟨_, hout⟩ => by
    rw [h] at hout
    cases hout

theorem step_cases (m : Machine κ) (r : Request κ) :
    (Accepted m r ∧ ∃ out, exec r.command m.view.stateDb = (.ok out, (step m r).view.stateDb)) ∨
      ¬ Accepted m r ∧ (step m r).view.stateDb = m.view.stateDb := by
  rcases invoke_cases noCalls ⟨fun _ _ _ => .ok true, fun _ => prog r⟩ r.inv m with ⟨out, m', hrun, hok, hview⟩ | ⟨e,
    herr, hdb⟩
  · have hok' : (request m r).1 = .ok out := hok
    refine .inl ⟨⟨out, hok'⟩, out, ?_⟩
    have hstep : step m r = (request m r).2.2 := by simp only [step, hok']
    have hexec := runProg_prog hrun
    rw [hstep, request, hview]
    exact hexec
  · have herr' : (request m r).1 = .error e := herr
    refine .inr ⟨?_, ?_⟩
    · rintro ⟨out, hout⟩
      rw [herr'] at hout
      cases hout
    · simp only [step, herr']
      split_ifs with hfail
      · exact hdb hfail
      · rfl

/-! ## Runs -/

section Runs

variable {M : Type} (toRequest : M → Request κ)

def run (m : Machine κ) (msgs : List M) : Machine κ := msgs.foldl (fun m msg => step m (toRequest msg)) m

/-- the messages accepted, in order -/
def accepted (m : Machine κ) : List M → List M
  | [] => []
  | msg :: msgs => (if Accepted m (toRequest msg) then [msg] else []) ++ accepted (step m (toRequest msg)) msgs

variable {toRequest}

theorem accepted_sublist (m : Machine κ) (msgs : List M) : (accepted toRequest m msgs).Sublist msgs := by
  induction msgs generalizing m with
  | nil => exact List.Sublist.slnil
  | cons msg msgs ih =>
    rw [accepted]
    split_ifs
    · exact (ih _).cons_cons msg
    · exact (ih _).cons msg

theorem run_append (m : Machine κ) (before after : List M) :
    run toRequest m (before ++ after) = run toRequest (run toRequest m before) after := by
  simp [run]

theorem accepted_append (m : Machine κ) (before after : List M) :
    accepted toRequest m (before ++ after) =
      accepted toRequest m before ++ accepted toRequest (run toRequest m before) after := by
  induction before generalizing m with
  | nil => rfl
  | cons msg before ih =>
    rw [List.cons_append, accepted, accepted, ih, List.append_assoc]
    rfl

/-- **Runs.** What a successful command keeps, with its message added to those accepted before, holds after any messages. -/
theorem run_induction {P : StateDb κ → List M → Prop}
    (hstep : ∀ db db' done msg out, P db done → exec (toRequest msg).command db = (.ok out, db') → P db' (done ++ [msg]))
    {m : Machine κ} {done : List M} (hstart : P m.view.stateDb done) (msgs : List M) :
    P (run toRequest m msgs).view.stateDb (done ++ accepted toRequest m msgs) := by
  induction msgs generalizing m done with
  | nil => simpa [run, accepted] using hstart
  | cons msg msgs ih =>
    rcases step_cases m (toRequest msg) with ⟨haccepted, out, hexec⟩ | ⟨hrefused, hdb⟩
    · have hnext := ih (hstep _ _ _ _ _ hstart hexec)
      rw [accepted, if_pos haccepted, ← List.append_assoc]
      exact hnext
    · rw [← hdb] at hstart
      have hnext := ih hstart
      rw [accepted, if_neg hrefused, List.nil_append]
      exact hnext

end Runs

end SidechainsSdk.Account.NativeContract
