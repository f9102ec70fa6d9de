-- Whole streams: the scans of consecutive chunks, one after the other. Each of
-- them gives the same report and leaves the same state with every scratch space
-- that the program fits in.
import StreamMatch.Proofs.Scan.Chunk
import StreamMatch.Stream

namespace StreamMatch

open Bytes

/-- Consecutive chunks, put together. -/
def Bytes.join : List Bytes → Bytes
  | [] => .empty
  | data :: rest => data ++ join rest

/-! ## Programs -/

namespace Program

/-- A program that was built from what was added to a draft, which has the current
header. -/
def Built (p : Program) : Prop :=
  ∃ settings additions, (Draft.addEach { settings } additions).1.build = .ok p

namespace Built

variable {p : Program}

/-- Each literal has an identifier of its own if there are not more literals than
identifiers. -/
theorem sound (h : p.Built) (hids : p.literals.size ≤ 0x100000000) : p.Sound := by
  obtain ⟨settings, additions, hbuild⟩ := h
  exact Draft.sound_of_build ((Draft.sound_empty settings .current).addEach additions) hbuild hids

theorem header_eq (h : p.Built) : p.header = .current := by
  obtain ⟨settings, additions, hbuild⟩ := h
  rw [(Draft.builds_of_build hbuild).header, (Draft.fixed_addEach _ _).1]

theorem validate (h : p.Built) : p.validate = .ok () := by
  unfold Program.validate
  rw [(Header.validate_eq_ok_iff _).mpr h.header_eq]
  rfl

end Built

/-! ## Runs of scans -/

/-- Consecutive chunks are scanned from a state, each of them with a policy of its
own. -/
inductive Runs (p : Program) :
    Bytes → List (Bytes × Policy) → List (Status × Array Event) → Bytes → Prop where
  | nil (region : Bytes) : Runs p region [] [] region
  | cons {region mid region' data : Bytes} {policy : Policy} {status : Status}
      {events : Array Event} {rest : List (Bytes × Policy)}
      {outcomes : List (Status × Array Event)}
      (head : p.Scans region data false policy status events mid)
      (tail : Runs p mid rest outcomes region') :
      Runs p region ((data, policy) :: rest) ((status, events) :: outcomes) region'

/-- What a scan gives does not depend on the buffers, so it gives one thing only. -/
theorem Scans.unique {p : Program} {region data a b : Bytes} {isFinal : Bool} {policy : Policy}
    {status status' : Status} {events events' : Array Event}
    (h : p.Scans region data isFinal policy status events a)
    (h' : p.Scans region data isFinal policy status' events' b) :
    status = status' ∧ events = events' ∧ a = b := by
  have hfit : Buffers.Fit ⟨.zeros p.seamSize, .zeros p.windowSize, [], p.literals.size⟩ p :=
    ⟨by rw [zeros_size], by rw [zeros_size], Nat.le_refl _⟩
  obtain ⟨buffers, -, hscan⟩ := h _ hfit
  obtain ⟨buffers', -, hscan'⟩ := h' _ hfit
  rw [hscan'] at hscan
  cases hscan
  exact ⟨rfl, rfl, rfl⟩

theorem Runs.unique {p : Program} {region a b : Bytes} {requests : List (Bytes × Policy)}
    {outcomes outcomes' : List (Status × Array Event)} (h : p.Runs region requests outcomes a)
    (h' : p.Runs region requests outcomes' b) : outcomes = outcomes' ∧ a = b := by
  induction h generalizing outcomes' with
  | nil region =>
    cases h'
    exact ⟨rfl, rfl⟩
  | cons head tail ih =>
    obtain _ | ⟨head', tail'⟩ := h'
    obtain ⟨rfl, rfl, rfl⟩ := head.unique head'
    obtain ⟨rfl, rfl⟩ := ih tail'
    exact ⟨rfl, rfl⟩

/-- A state that a stream can have after `n` bytes. -/
def StateAfter (p : Program) (stream : Bytes) (n : Nat) (region : Bytes) : Prop :=
  (∃ past, p.Awaits stream n past region) ∨ p.Owns region 1

variable {p : Program} {stream region data : Bytes} {n : Nat} {past : List Event} {isFinal : Bool}

theorem awaits_initial (hp : p.Sound) (stream : Bytes) :
    p.Awaits stream 0 [] (StreamState.initial p.streamSize p.checksum) :=
  ⟨.first, [], fun _ => .start, ready_initial hp stream⟩

theorem stateAfter_initial (hp : p.Sound) (stream : Bytes) :
    p.StateAfter stream 0 (StreamState.initial p.streamSize p.checksum) :=
  Or.inl ⟨[], p.awaits_initial hp stream⟩

/-- A chunk can be scanned in each state of a stream. -/
theorem StateAfter.exists_scan (hp : p.Sound) (hsize : stream.size < 0x4000000000000000)
    (h : p.StateAfter stream n region) (hdata : PartOf stream n data)
    (hfinal : isFinal = true → n + data.size = stream.size) (policy : Policy) :
    ∃ status events region', p.Scans region data isFinal policy status events region' ∧
      (isFinal = false → p.StateAfter stream (n + data.size) region') := by
  rcases h with ⟨past, resume, reported, states, hready⟩ | howns
  · obtain ⟨status, events, region', hscans, hleaves⟩ :=
      hready.scanChunk_spec hp hsize hdata hfinal policy
    refine ⟨status, events, region', hscans, fun hf => ?_⟩
    cases status with
    | completed =>
      obtain ⟨-, hawaits⟩ := hleaves
      rw [hf, if_neg Bool.false_ne_true] at hawaits
      exact Or.inl ⟨_, hawaits⟩
    | terminated => exact Or.inr hleaves.1
  · exact ⟨.terminated, #[], region, howns.scans_terminated hp data isFinal policy,
      fun _ => Or.inr howns⟩

/-- Each state of a stream is accepted. -/
theorem StateAfter.validate (hp : p.Sound) (hsize : stream.size < 0x4000000000000000)
    (h : p.StateAfter stream n region) :
    StreamState.validate p.layout p.repeats p.checksum region = .ok () := by
  rcases h with ⟨past, resume, reported, states, hready⟩ | howns
  · exact hready.validate hp hsize
  · exact howns.validate_terminated

theorem StateAfter.size_eq (h : p.StateAfter stream n region) : region.size = p.streamSize := by
  rcases h with ⟨past, resume, reported, states, hready⟩ | howns
  · exact hready.owns.size_eq
  · exact howns.size_eq

/-- The stream can be closed in each state after all its bytes. -/
theorem StateAfter.exists_close (hp : p.Sound) (hsize : stream.size < 0x4000000000000000)
    (h : p.StateAfter stream stream.size region) (policy : Policy) :
    ∃ status events region', p.Scans region .empty true policy status events region' := by
  have hlast : true = true → stream.size + ByteArray.empty.size = stream.size :=
    fun _ => Nat.add_zero _
  obtain ⟨status, events, region', hscans, -⟩ :=
    h.exists_scan hp hsize (.empty (Nat.le_refl _)) hlast policy
  exact ⟨status, events, region', hscans⟩

/-- Consecutive chunks can be scanned from each state of a stream. -/
theorem StateAfter.exists_runs (hp : p.Sound) (hsize : stream.size < 0x4000000000000000)
    {requests : List (Bytes × Policy)} (h : p.StateAfter stream n region)
    (hparts : PartOf stream n (join (requests.map Prod.fst))) :
    ∃ outcomes region', p.Runs region requests outcomes region' ∧
      p.StateAfter stream (n + (join (requests.map Prod.fst)).size) region' := by
  induction requests generalizing n region with
  | nil => exact ⟨[], region, .nil region, h⟩
  | cons request rest ih =>
    obtain ⟨data, policy⟩ := request
    rw [List.map_cons, join] at hparts ⊢
    have hnot : false = true → n + data.size = stream.size := fun hf => absurd hf (by decide)
    obtain ⟨status, events, mid, hscans, hmid⟩ :=
      h.exists_scan hp hsize hparts.of_append_left hnot policy
    obtain ⟨outcomes, region', hruns, hafter⟩ := ih (hmid rfl) hparts.of_append_right
    refine ⟨(status, events) :: outcomes, region', .cons hscans hruns, ?_⟩
    rwa [ByteArray.size_append, ← Nat.add_assoc]

/-- The state that some scans leave is one that each stream that starts with their
chunks can have. -/
theorem Runs.stateAfter (hp : p.Sound) {requests : List (Bytes × Policy)}
    {outcomes : List (Status × Array Event)}
    (h : p.Runs (StreamState.initial p.streamSize p.checksum) requests outcomes region)
    (hsize : stream.size < 0x4000000000000000)
    (hparts : PartOf stream 0 (join (requests.map Prod.fst))) :
    p.StateAfter stream (join (requests.map Prod.fst)).size region := by
  obtain ⟨outcomes', region', hruns, hafter⟩ :=
    (p.stateAfter_initial hp stream).exists_runs hp hsize hparts
  obtain ⟨-, rfl⟩ := h.unique hruns
  rwa [Nat.zero_add] at hafter

/-- Without a policy that stops it, each scan is completed and tells the events
that follow those of the scans before. -/
theorem Awaits.runs_always (hp : p.Sound) (hsize : stream.size < 0x4000000000000000)
    {chunks : List Bytes} (h : p.Awaits stream n past region)
    (hparts : PartOf stream n (join chunks)) :
    ∃ (told : List (Array Event)) (region' : Bytes),
      p.Runs region (chunks.map fun data => (data, Policy.always))
        (told.map fun events => (.completed, events)) region' ∧
      p.Awaits stream (n + (join chunks).size) (past ++ told.flatMap Array.toList) region' := by
  induction chunks generalizing n region past with
  | nil =>
    refine ⟨[], region, .nil region, ?_⟩
    rwa [List.flatMap_nil, List.append_nil]
  | cons data rest ih =>
    rw [join] at hparts ⊢
    obtain ⟨resume, reported, states, hready⟩ := h
    have hnot : false = true → n + data.size = stream.size := fun hf => absurd hf (by decide)
    obtain ⟨status, events, mid, hscans, hleaves⟩ :=
      hready.scanChunk_spec hp hsize hparts.of_append_left hnot .always
    cases status with
    | completed =>
      obtain ⟨-, hawaits⟩ := hleaves
      rw [if_neg Bool.false_ne_true] at hawaits
      obtain ⟨told, region', hruns, hafter⟩ := ih hawaits hparts.of_append_right
      refine ⟨events :: told, region', .cons hscans hruns, ?_⟩
      rwa [ByteArray.size_append, ← Nat.add_assoc, List.flatMap_cons, ← List.append_assoc]
    | terminated =>
      obtain ⟨-, ⟨before, last, -, -, hstop⟩, -⟩ := hleaves
      cases hstop

/-- The last scan tells the events that are left. -/
theorem Awaits.scans_final (hp : p.Sound) (hsize : stream.size < 0x4000000000000000)
    (h : p.Awaits stream n past region) (hdata : PartOf stream n data)
    (hfinal : n + data.size = stream.size) :
    ∃ events region', p.Scans region data true .always .completed events region' ∧
      past ++ events.toList = p.eventsOf (p.rawMatches stream) := by
  obtain ⟨resume, reported, states, hready⟩ := h
  obtain ⟨status, events, region', hscans, hleaves⟩ := hready.scanChunk_spec hp hsize hdata
    (fun _ => hfinal) .always
  cases status with
  | completed =>
    obtain ⟨-, hevents⟩ := hleaves
    rw [if_pos rfl] at hevents
    exact ⟨events, region', hscans, hevents⟩
  | terminated =>
    obtain ⟨-, ⟨before, last, -, -, hstop⟩, -⟩ := hleaves
    cases hstop

end Program

end StreamMatch
