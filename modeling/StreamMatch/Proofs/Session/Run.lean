-- Sessions that perform several commands, and what each command that scans does when
-- what it names exists.
import StreamMatch.Proofs.Checked
import StreamMatch.Proofs.Session.Named

namespace StreamMatch.Session

open Bytes

/-- Performs commands one after the other. Each of them comes with its reply. -/
def run (s : Session) : List Command → Checked (List (Command × Reply) × Session)
  | [] => return ([], s)
  | c :: rest => do
    let (s, reply) ← s.step c
    let (replies, s) ← run s rest
    return ((c, reply) :: replies, s)

variable {s s' : Session} {c : Command} {reply : Reply}

theorem run_cons {s'' : Session} {rest : List Command} {transcript : List (Command × Reply)}
    (h : s.step c = .ok (s', reply)) (hrest : s'.run rest = .ok (transcript, s'')) :
    s.run (c :: rest) = .ok ((c, reply) :: transcript, s'') := by
  rw [run, h]
  simp only [Checked.ok_bind, hrest, Checked.pure_eq]

/-! ## Computations that can stop with a reply -/

section Replies

variable {α β : Type} {x : ExceptT Reply Checked α} {f : α → ExceptT Reply Checked β}

@[simp]
theorem run_pure (a : α) : (pure a : ExceptT Reply Checked α).run = .ok (.ok a) := rfl

theorem run_bind {a : α} (h : x.run = .ok (.ok a)) : (x >>= f).run = (f a).run := by
  have hx : x = ExceptT.mk (.ok (.ok a)) := h
  rw [hx]
  rfl

theorem run_bind_error (h : x.run = .ok (.error reply)) : (x >>= f).run = .ok (.error reply) := by
  have hx : x = ExceptT.mk (.ok (.error reply)) := h
  rw [hx]
  rfl

theorem run_lift {y : Checked α} {a : α} (h : y = .ok a) :
    (liftM y : ExceptT Reply Checked α).run = .ok (.ok a) := by
  rw [h]
  rfl

theorem run_known {o : Option α} {a : α} (h : o = some a) : (known o).run = .ok (.ok a) := by
  rw [h]
  rfl

theorem run_unknown {o : Option α} (h : o = none) :
    (known o).run = .ok (.error .unknownName) := by
  rw [h]
  rfl

/-- If the computation does not stop with a reply, its result has a property. -/
def Performs (P : α → Prop) (x : ExceptT Reply Checked α) : Prop := ∀ a, x.run = .ok (.ok a) → P a

namespace Performs

variable {P : α → Prop} {Q : β → Prop}

theorem of_pure {a : α} (h : P a) : Performs P (pure a) := by
  intro a' ha
  cases ha
  exact h

/-- A step whose result has a property, which computations follow. -/
theorem bind (h : Performs P x) (hf : ∀ a, P a → Performs Q (f a)) : Performs Q (x >>= f) := by
  intro b hb
  rcases hx : x.run with e | e | a
  · have hx' : x = ExceptT.mk (.error e) := hx
    rw [hx'] at hb
    cases hb
  · rw [run_bind_error hx] at hb
    cases hb
  · rw [run_bind hx] at hb
    exact hf a (h a hx) b hb

theorem known (o : Option α) : Performs (fun a => o = some a) (known o) := by
  intro a ha
  cases o with
  | none => cases ha
  | some b =>
    cases ha
    rfl

theorem lift {y : Checked α} (h : Checked.Ensures P y) :
    Performs P (liftM y : ExceptT Reply Checked α) := by
  intro a ha
  cases y with
  | error e => cases ha
  | ok b =>
    cases ha
    exact h a rfl

end Performs

end Replies

theorem step_of_perform (h : (s.perform c).run = .ok (.ok (s', reply))) :
    s.step c = .ok (s', reply) := by
  rw [step, h]
  rfl

/-- A property of a session that a command keeps if it does not stop with a reply holds
after the command in any case. -/
theorem step_ensures {P : Session → Prop} (h : P s)
    (hperform : Performs (fun r => P r.1) (s.perform c)) :
    Checked.Ensures (fun r => P r.1) (s.step c) := by
  refine Checked.Ensures.step fun r hr => ?_
  cases r with
  | ok r => exact .of_ok (hperform r hr)
  | error reply => exact .of_ok h

/-- A session stays as it is when a name is unknown. -/
theorem step_of_error (h : (s.perform c).run = .ok (.error reply)) : s.step c = .ok (s, reply) := by
  rw [step, h]
  rfl

/-! ## Memories -/

section Memories

variable (s : Session) (m : Memory) (i : Option Nat)

@[simp]
theorem setMemory_programs : (s.setMemory m i).programs = s.programs := by cases i <;> rfl

@[simp]
theorem setMemory_streams : (s.setMemory m i).streams = s.streams := by cases i <;> rfl

@[simp]
theorem setMemory_scratches : (s.setMemory m i).scratches = s.scratches := by cases i <;> rfl

end Memories

/-! ## Commands that scan -/

variable {name scratch : String} {o : Owned Stream} {k : Owned Scratch}

/-- The session without a stream and a scratch space. -/
def without (s : Session) (stream scratch : String) : Session :=
  { s with
    streams := s.streams.erase stream
    scratches := s.scratches.erase scratch }

theorem run_takeBoth (ho : s.streams.find? name = some o)
    (hk : s.scratches.find? scratch = some k) :
    (s.takeBoth name scratch).run = .ok (.ok (s.without name scratch, o, k)) := by
  unfold takeBoth
  rw [run_bind (run_known ho), run_bind (run_known hk)]
  rfl

theorem run_takeBoth_unknown (ho : s.streams.find? name = none) :
    (s.takeBoth name scratch).run = .ok (.error .unknownName) := by
  unfold takeBoth
  rw [run_bind_error (run_unknown ho)]

theorem step_scan {data : Bytes} {policy : Policy} {report : Report} {t : Stream} {left : Scratch}
    (ho : s.streams.find? name = some o) (hk : s.scratches.find? scratch = some k)
    (h : o.value.scan k.value data policy = .ok (report, t, left)) :
    s.step (.scan name scratch data policy) =
      .ok (((s.without name scratch).setStream name o t).setScratch scratch k left,
        .scanned report) := by
  apply step_of_perform
  unfold perform
  rw [run_bind (run_takeBoth ho hk), run_bind (run_lift h), run_pure]

theorem step_close {policy : Policy} {report : Report} {left : Scratch} {m m' : Memory}
    (ho : s.streams.find? name = some o) (hk : s.scratches.find? scratch = some k)
    (hm : s.memory o.memory = some m)
    (h : o.value.close k.value policy m = .ok (report, left, m')) :
    s.step (.close name scratch policy) =
      .ok (((s.without name scratch).setMemory m' o.memory).setScratch scratch k left,
        .scanned report) := by
  have hm' : (s.without name scratch).memory o.memory = some m := hm
  apply step_of_perform
  unfold perform
  rw [run_bind (run_takeBoth ho hk), run_bind (run_known hm'), run_bind (run_lift h), run_pure]

theorem step_reset (ho : s.streams.find? name = some o) :
    s.step (.reset name) = .ok (s.setStream name o o.value.reset, .done) := by
  apply step_of_perform
  unfold perform
  rw [run_bind (run_known ho), run_pure]

theorem step_scanBlock {program : Nat} {p : Program} {data : Bytes} {policy : Policy}
    {report : Report} {left : Scratch} (hp : s.programs[program]? = some p)
    (hk : s.scratches.find? scratch = some k)
    (h : p.scanBlock k.value data policy = .ok (report, left)) :
    s.step (.scanBlock program scratch data policy) =
      .ok (s.setScratch scratch k left, .scanned report) := by
  apply step_of_perform
  unfold perform
  rw [run_bind (run_known hp), run_bind (run_known hk), run_bind (run_lift h), run_pure]

end StreamMatch.Session
