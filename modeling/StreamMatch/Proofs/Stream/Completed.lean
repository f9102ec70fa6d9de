-- Streams that were not stopped. When each call was completed, the state of the
-- stream waits for the bytes that follow, in every stream that starts with the
-- chunks of the calls, and what was told are the matches reported so far.
import StreamMatch.Proofs.Stream.Calls

namespace StreamMatch

open Bytes

namespace Report

/-- All the data of a scan was scanned. -/
def IsCompleted (r : Report) : Prop := ∃ events, r = .ok (.completed, events)

/-- The events of a scan. -/
def told : Report → List Event
  | .ok (_, events) => events.toList
  | .error _ => []

end Report

/-- The events of some scans, one after the other. -/
def toldBy (results : List (Report × Scratch)) : List Event := results.flatMap fun r => r.1.told

/-! ## Runs of scans -/

namespace Program

variable {p : Program} {stream region region' : Bytes} {n : Nat} {past : List Event}
  {requests : List (Bytes × Policy)} {outcomes : List (Status × Array Event)}

/-- After scans that were completed, the state waits for the bytes that follow. -/
theorem Awaits.of_runs (hp : p.Sound) (hsize : stream.size < 0x4000000000000000)
    (h : p.Awaits stream n past region) (hparts : PartOf stream n (join (requests.map Prod.fst)))
    (hruns : p.Runs region requests outcomes region')
    (hcompleted : ∀ o ∈ outcomes, o.1 = .completed) :
    p.Awaits stream (n + (join (requests.map Prod.fst)).size)
      (past ++ outcomes.flatMap fun o => o.2.toList) region' := by
  induction hruns generalizing n past with
  | nil region => simpa [join] using h
  | @cons region mid region' data policy status events rest outcomes head tail ih =>
    rw [List.map_cons, join] at hparts ⊢
    obtain ⟨resume, reported, states, hready⟩ := h
    have hnot : false = true → n + data.size = stream.size := fun hf => absurd hf (by decide)
    obtain ⟨status', events', mid', hscans, hleaves⟩ :=
      hready.scanChunk_spec hp hsize hparts.of_append_left hnot policy
    obtain ⟨rfl, rfl, rfl⟩ := head.unique hscans
    obtain rfl : status = .completed := hcompleted (status, events) List.mem_cons_self
    -- It was not stopped, so the state waits for the chunks that are left.
    obtain ⟨-, hawaits⟩ := hleaves
    rw [if_neg Bool.false_ne_true] at hawaits
    have hafter := ih hawaits hparts.of_append_right fun o ho =>
      hcompleted o (List.mem_cons_of_mem _ ho)
    rwa [ByteArray.size_append, ← Nat.add_assoc, List.flatMap_cons, ← List.append_assoc]

/-- Without a policy that stops it, each scan is completed. -/
theorem Awaits.completed_of_always (hp : p.Sound) (hsize : stream.size < 0x4000000000000000)
    (h : p.Awaits stream n past region) (hparts : PartOf stream n (join (requests.map Prod.fst)))
    (hruns : p.Runs region requests outcomes region')
    (halways : ∀ r ∈ requests, r.2 = Policy.always) : ∀ o ∈ outcomes, o.1 = .completed := by
  have hrequests : (requests.map Prod.fst).map (fun data => (data, Policy.always)) = requests := by
    rw [List.map_map]
    conv => rhs; rw [← List.map_id requests]
    apply List.map_congr_left
    intro r hr
    exact Prod.ext rfl (halways r hr).symm
  obtain ⟨told, _, hruns', -⟩ := h.runs_always hp hsize hparts
  rw [hrequests] at hruns'
  obtain ⟨rfl, -⟩ := hruns.unique hruns'
  intro o ho
  obtain ⟨events, -, rfl⟩ := List.mem_map.mp ho
  rfl

end Program

/-! ## Calls -/

namespace Stream

variable {p : Program} {s : Stream} {m m' : Memory} {calls : List Call}

/-- The reports of completed calls are outcomes of completed scans. -/
theorem completed_of_reports {results : List (Report × Scratch)}
    {outcomes : List (Status × Array Event)}
    (hreports : results.map Prod.fst = outcomes.map .ok)
    (hcompleted : ∀ r ∈ results, r.1.IsCompleted) : ∀ o ∈ outcomes, o.1 = .completed := by
  intro o ho
  have hmem : (.ok o : Report) ∈ results.map Prod.fst := by
    rw [hreports]
    exact List.mem_map_of_mem ho
  obtain ⟨r, hr, hro⟩ := List.mem_map.mp hmem
  obtain ⟨events, hevents⟩ := hcompleted r hr
  rw [hro] at hevents
  cases hevents
  rfl

theorem toldBy_of_reports {results : List (Report × Scratch)}
    {outcomes : List (Status × Array Event)}
    (hreports : results.map Prod.fst = outcomes.map .ok) :
    toldBy results = outcomes.flatMap fun o => o.2.toList := by
  have hfst : toldBy results = (results.map Prod.fst).flatMap Report.told := by
    rw [List.flatMap_map]
    rfl
  rw [hfst, hreports, List.flatMap_map]
  rfl

section Opened

variable (hp : p.Built) (hids : p.literals.size ≤ 0x100000000) (hstart : start p m = (.ok s, m'))
  (hsize : (join (calls.map Call.data)).size < 0x4000000000000000)
  (hcalls : ∀ c ∈ calls, c.scratch.validate p = .ok ())
include hp hids hstart hsize hcalls

/-- The calls of a stream that was opened give reports. If all of them were
completed, the stream waits for what follows them in each stream of bytes. -/
theorem exists_awaits : ∃ results region, s.scanCalls calls = .ok (results, s.withBytes region) ∧
    ((∀ r ∈ results, r.1.IsCompleted) → ∀ stream, stream.size < 0x4000000000000000 →
      PartOf stream 0 (join (calls.map Call.data)) →
      p.Awaits stream (join (calls.map Call.data)).size (toldBy results) region) := by
  have hsound := hp.sound hids
  obtain ⟨rfl, hstate⟩ := start_eq_ok hstart
  obtain ⟨outcomes, region, hruns, -⟩ :=
    (s.program.stateAfter_initial hsound _).exists_calls hsound hsize (PartOf.refl _)
  have hruns' := hruns
  rw [← hstate] at hruns'
  obtain ⟨results, hscan, hreports, -⟩ := scanCalls_of_runs hp.validate hcalls hruns'
  refine ⟨results, region, hscan, ?_⟩
  intro hcompleted stream hlt hpart
  rw [← Call.map_fst_request] at hpart ⊢
  have hafter := (s.program.awaits_initial hsound stream).of_runs hsound hlt hpart hruns
    (completed_of_reports hreports hcompleted)
  rwa [Nat.zero_add, List.nil_append, ← toldBy_of_reports hreports] at hafter

/-- Without a policy that stops the stream, its calls are completed. -/
theorem completed_of_always {results : List (Report × Scratch)} {s' : Stream}
    (hscan : s.scanCalls calls = .ok (results, s')) (halways : ∀ c ∈ calls, c.policy = .always) :
    ∀ r ∈ results, r.1.IsCompleted := by
  have hsound := hp.sound hids
  obtain ⟨rfl, hstate⟩ := start_eq_ok hstart
  rw [← Call.map_fst_request] at hsize
  have hdata := PartOf.refl (join ((calls.map Call.request).map Prod.fst))
  obtain ⟨outcomes, region, hruns, -⟩ :=
    (s.program.stateAfter_initial hsound _).exists_runs hsound hsize hdata
  have hcompleted := (s.program.awaits_initial hsound _).completed_of_always hsound hsize hdata
    hruns fun request hrequest => by
      obtain ⟨c, hc, rfl⟩ := List.mem_map.mp hrequest
      exact halways c hc
  rw [← hstate] at hruns
  obtain ⟨results', hscan', hreports, -⟩ := scanCalls_of_runs hp.validate hcalls hruns
  rw [hscan] at hscan'
  cases hscan'
  intro r hr
  have hmem : r.1 ∈ outcomes.map .ok := by
    rw [← hreports]
    exact List.mem_map_of_mem hr
  obtain ⟨⟨status, events⟩, ho, heq⟩ := List.mem_map.mp hmem
  obtain rfl : status = .completed := hcompleted _ ho
  exact ⟨events, heq.symm⟩

end Opened

end Stream

end StreamMatch
