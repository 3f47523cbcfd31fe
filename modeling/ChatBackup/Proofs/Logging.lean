import ChatBackup.Proofs.Acceptance

/-!
# A log of what is done to a sink

`Logged` hands every operation on to the sink below and writes down what came of it. What is said
of a log is said of the operations on the sink below, whatever sink that is:

> `Logged.enters`: the bytes that a log tells as accepted (`accepted`) are a ledger which holds
> through successes, interruptions and failures.
> `Logged.takesAll`: a sink that takes everything does so under a log.

The closing string is not among the accepted bytes; in a log it is an event of its own, and `given`
puts it behind them.
-/

namespace ChatBackup

open Sink

/-- An operation on a sink and what came of it. -/
inductive SinkEvent where
  | write (offered : Bytes) (outcome : Outcome Nat)
  | flush (result : Except Failure Unit)
  /-- The closing string was handed on. -/
  | append (closing : Bytes) (result : Except Failure Unit)

namespace SinkEvent

/-- The bytes that were accepted in an operation. -/
def bytes : SinkEvent → Bytes
  | write b r => taken b r
  | _ => []

/-- Whether an operation handed a closing string on. -/
def IsAppend : SinkEvent → Prop
  | append _ _ => True
  | _ => False

end SinkEvent

/-- All bytes accepted in the operations of a log. -/
def accepted (log : List SinkEvent) : Bytes := log.flatMap SinkEvent.bytes

/-- No closing string was handed on. -/
def Unclosed (log : List SinkEvent) : Prop := ∀ e ∈ log, ¬ e.IsAppend

theorem prefix_of_eq {a b : Bytes} (h : a = b) : a <+: b := ⟨[], by rw [List.append_nil, h]⟩

theorem accepted_append (log more : List SinkEvent) :
    accepted (log ++ more) = accepted log ++ accepted more := List.flatMap_append

theorem Unclosed.append {log more : List SinkEvent} (h : Unclosed log) (h' : Unclosed more) :
    Unclosed (log ++ more) := by
  intro e he
  rcases List.mem_append.mp he with he | he
  · exact h e he
  · exact h' e he

theorem unclosed_nil : Unclosed [] := fun _ h => nomatch h

theorem unclosed_singleton {e : SinkEvent} (h : ¬ e.IsAppend) : Unclosed [e] := by
  intro e' he
  rw [List.mem_singleton.mp he]
  exact h

/-! ## The closing string too -/

/-- The bytes that a sink has taken in an operation, those of a closing string too. -/
def SinkEvent.given : SinkEvent → Bytes
  | append b (.ok ()) => b
  | e => e.bytes

/-- All bytes that a sink has taken in the operations of a log. -/
def given (log : List SinkEvent) : Bytes := log.flatMap SinkEvent.given

theorem given_append (log more : List SinkEvent) : given (log ++ more) = given log ++ given more :=
  List.flatMap_append

/-- Without a closing string these are the bytes that were written. -/
theorem given_of_unclosed {log : List SinkEvent} (h : Unclosed log) : given log = accepted log := by
  induction log with
  | nil => rfl
  | cons e log ih =>
    have htail := ih fun e' he => h e' (List.mem_cons_of_mem e he)
    have hhead : e.given = e.bytes := by
      cases e with
      | write b r => rfl
      | flush r => rfl
      | append b r => exact absurd trivial (h _ List.mem_cons_self)
    rw [given, accepted, List.flatMap_cons, List.flatMap_cons, hhead]
    exact congrArg (e.bytes ++ ·) htail

/-! ## Layers that let everything through -/

namespace Sink

/-- A layer that hands each operation on and answers what the sink below does. -/
structure Through {α σ : Type} [Sink α] [Sink σ] (below : α → σ) : Prop where
  write : ∀ (a : α) (b : Bytes), (Sink.write a b).1 = (Sink.write (below a) b).1 ∧
    below (Sink.write a b).2 = (Sink.write (below a) b).2
  flush : ∀ a : α, (Sink.flush a).1 = (Sink.flush (below a)).1 ∧
    below (Sink.flush a).2 = (Sink.flush (below a)).2
  patience : ∀ a : α, Sink.patience a = Sink.patience (below a)

variable {α σ : Type} [Sink α] [Sink σ] {below : α → σ}

theorem Through.writePast (h : Through below) (b : Bytes) :
    ∀ (k : Nat) (a : α), (writePast k a b).1 = (writePast k (below a) b).1 ∧
      below (writePast k a b).2 = (writePast k (below a) b).2 := by
  intro k
  induction k with
  | zero => intro a; exact h.write a b
  | succ k ih =>
    intro a
    obtain ⟨hres, hbelow⟩ := h.write a b
    cases hw : Sink.write a b with
    | mk r a' =>
      rw [hw] at hres hbelow
      have hw' : Sink.write (below a) b = (r, below a') := Prod.ext hres.symm hbelow.symm
      cases r with
      | interrupted =>
        rw [writePast_interrupted hw, writePast_interrupted hw']
        exact ih a'
      | done n =>
        rw [writePast_of_not_interrupted (by rw [hw]; simp),
          writePast_of_not_interrupted (by rw [hw']; simp)]
        exact h.write a b
      | failed e =>
        rw [writePast_of_not_interrupted (by rw [hw]; simp),
          writePast_of_not_interrupted (by rw [hw']; simp)]
        exact h.write a b

theorem Through.writeRounds (h : Through below) :
    ∀ (fuel : Nat) (a : α) (b : Bytes),
      (writeRounds fuel a b).1 = (writeRounds fuel (below a) b).1 ∧
        below (writeRounds fuel a b).2 = (writeRounds fuel (below a) b).2 := by
  intro fuel
  induction fuel with
  | zero => intro a b; exact ⟨rfl, rfl⟩
  | succ fuel ih =>
    intro a b
    obtain ⟨hres, hbelow⟩ := h.writePast b (Sink.patience a) a
    unfold Sink.writeRounds
    by_cases hnil : b.isEmpty = true
    · rw [if_pos hnil, if_pos hnil]
      exact ⟨rfl, rfl⟩
    · rw [if_neg hnil, if_neg hnil, ← h.patience]
      generalize Sink.writePast (Sink.patience a) a b = x at hres hbelow ⊢
      generalize Sink.writePast (Sink.patience a) (below a) b = y at hres hbelow ⊢
      obtain ⟨r, a'⟩ := x
      obtain ⟨r', s'⟩ := y
      obtain rfl : r = r' := hres
      obtain rfl : below a' = s' := hbelow
      cases r with
      | done n =>
        cases n with
        | zero => exact ⟨rfl, rfl⟩
        | succ n => exact ih a' _
      | interrupted => exact ⟨rfl, rfl⟩
      | failed e => exact ⟨rfl, rfl⟩

end Sink

/-! ## Sinks under a log -/

/-- A sink with the log of what was done to it, oldest first. -/
structure Logged (σ : Type) where
  inner : σ
  log : List SinkEvent := []

namespace Logged

section Writes

variable {σ : Type} [Sink σ]

instance : Sink (Logged σ) where
  write s b :=
    match Sink.write s.inner b with
    | (r, inner) => (r, ⟨inner, s.log ++ [.write b r]⟩)
  flush s :=
    match Sink.flush s.inner with
    | (r, inner) => (r, ⟨inner, s.log ++ [.flush r]⟩)
  patience s := Sink.patience s.inner
  write_le s b n h := Sink.write_le s.inner b n h

theorem write_eq (s : Logged σ) (b : Bytes) :
    write s b = ((write s.inner b).1,
      ⟨(write s.inner b).2, s.log ++ [.write b (write s.inner b).1]⟩) := rfl

theorem flush_eq (s : Logged σ) :
    flush s = ((flush s.inner).1,
      ⟨(flush s.inner).2, s.log ++ [.flush (flush s.inner).1]⟩) := rfl

theorem flush_log {s s' : Logged σ} {r : Except Failure Unit} (h : flush s = (r, s')) :
    s'.log = s.log ++ [.flush r] := by
  rw [flush_eq] at h
  cases h
  rfl

theorem through : Through (Logged.inner (σ := σ)) where
  write _ _ := ⟨rfl, rfl⟩
  flush _ := ⟨rfl, rfl⟩
  patience _ := rfl

/-- The log as a ledger, up to the closing string. -/
def Accepted : Ledger (Logged σ) := fun s c => accepted s.log = c ∧ Unclosed s.log

theorem enters : Enters (Accepted (σ := σ)) where
  write {s c} b hs := by
    refine ⟨?_, hs.2.append (unclosed_singleton id)⟩
    rw [write_eq, accepted_append, hs.1]
    exact congrArg (c ++ ·) (List.append_nil _)
  flush {s c} hs := by
    refine ⟨?_, hs.2.append (unclosed_singleton id)⟩
    rw [flush_eq, accepted_append, hs.1]
    exact List.append_nil c

omit [Sink σ] in
theorem accepted_new (inner : σ) : Accepted ⟨inner, []⟩ [] := ⟨rfl, unclosed_nil⟩

/-- What the sink below has taken, as the log tells it too. -/
abbrev Over {σ : Type} (T : Ledger σ) : Ledger (Logged σ) := fun s c => T s.inner c ∧ Accepted s c

variable {T : Ledger σ}

theorem takes (hT : Takes T) : Takes (Over T) where
  done {s s' c b n} hs h := by
    refine ⟨?_, enters.records.done hs.2 h⟩
    rw [write_eq] at h
    cases hw : write s.inner b with
    | mk r inner =>
      rw [hw] at h
      cases h
      exact hT.done hs.1 hw
  interrupted {s s' c b} hs h := by
    refine ⟨?_, enters.records.interrupted hs.2 h⟩
    rw [write_eq] at h
    cases hw : write s.inner b with
    | mk r inner =>
      rw [hw] at h
      cases h
      exact hT.interrupted hs.1 hw
  flush {s s' c} hs h := by
    refine ⟨?_, enters.records.flush hs.2 h⟩
    rw [flush_eq] at h
    cases hf : Sink.flush s.inner with
    | mk r inner =>
      rw [hf] at h
      cases h
      exact hT.flush hs.1 hf
  takes {s c b} hs hb := by
    obtain ⟨n, inner, h⟩ := hT.takes hs.1 hb
    obtain ⟨hres, -⟩ := through.writePast b (patience s.inner) s
    rw [h] at hres
    exact ⟨n, _, Prod.ext hres rfl⟩
  flushes {s c} hs := by
    obtain ⟨inner, h⟩ := hT.flushes hs.1
    exact ⟨_, by rw [flush_eq, h]⟩

end Writes

variable {σ : Type} [AppendSink σ] {T E : Ledger σ}

instance : AppendSink (Logged σ) where
  append s b :=
    match AppendSink.append s.inner b with
    | (r, inner) => (r, ⟨inner, s.log ++ [.append b r]⟩)

theorem append_eq (s : Logged σ) (b : Bytes) :
    AppendSink.append s b = ((AppendSink.append s.inner b).1,
      ⟨(AppendSink.append s.inner b).2, s.log ++ [.append b (AppendSink.append s.inner b).1]⟩) :=
  rfl

theorem append_log {s s' : Logged σ} {b : Bytes} {r : Except Failure Unit}
    (h : AppendSink.append s b = (r, s')) : s'.log = s.log ++ [.append b r] := by
  rw [append_eq] at h
  cases h
  rfl

/-- A sink that takes everything does so under a log, which tells what it has taken. -/
theorem takesAll (hT : AppendSink.TakesAll T E) :
    AppendSink.TakesAll (Over T) (fun (s : Logged σ) c => E s.inner c) where
  toTakes := takes hT.toTakes
  append {s s' c b} hs h := by
    rw [append_eq] at h
    cases ha : AppendSink.append s.inner b with
    | mk r inner =>
      rw [ha] at h
      cases h
      exact hT.append hs.1 ha
  flushEnd {s s' c} hs h := by
    rw [flush_eq] at h
    cases hf : Sink.flush s.inner with
    | mk r inner =>
      rw [hf] at h
      cases h
      exact hT.flushEnd hs hf
  appends {s c} b hs := by
    obtain ⟨inner, h⟩ := hT.appends b hs.1
    exact ⟨_, by rw [append_eq, h]⟩
  flushesEnd {s c} hs := by
    obtain ⟨inner, h⟩ := hT.flushesEnd hs
    exact ⟨_, by rw [flush_eq, h]⟩

/-- What was given to a sink is the ledger of its log, with the closing string and without it. -/
theorem recordsAll_given :
    AppendSink.RecordsAll (Accepted (σ := σ)) (fun s c => given s.log = c) where
  toRecords := enters.records
  append {s s' c b} hs h := by
    have hopen : given s.log = c := by rw [given_of_unclosed hs.2, hs.1]
    show given s'.log = c ++ b
    rw [append_log h, given_append, hopen]
    exact congrArg (c ++ ·) (List.append_nil b)
  flushEnd {s s' c} hs h := by
    show given s'.log = c
    rw [flush_log h, given_append, hs]
    exact List.append_nil c

/-- What a sink holds by a ledger of its own it was given. -/
theorem recordsAll_held (hT : AppendSink.TakesAll T E) :
    AppendSink.RecordsAll (Over T) (fun s c => E s.inner c ∧ given s.log = c) where
  toRecords := (takes hT.toTakes).toRecords
  append hs h := ⟨(takesAll hT).append hs h, recordsAll_given.append hs.2 h⟩
  flushEnd hs h := ⟨(takesAll hT).flushEnd hs.1 h, recordsAll_given.flushEnd hs.2 h⟩

end Logged
end ChatBackup
