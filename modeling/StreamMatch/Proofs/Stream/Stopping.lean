-- Streams that are stopped. The policy that answers the events of a stream only cuts
-- off what follows the event at which it stops. From then on the stream is not scanned
-- anymore, and neither is any stream that goes on from its state.
import StreamMatch.Proofs.Stream.Completed
import StreamMatch.Proofs.Stream.Saved

namespace StreamMatch

open Bytes

/-! ## Policies of a whole stream -/

namespace Policy

/-- The policy of one call, of a policy that answers each event from all those of
the stream. The events `past` were told by the calls before. -/
def after (policy : Policy) (past : List Event) : Policy := fun events =>
  policy (past ++ events.toList).toArray

/-- The shortest part that some events start with and that ends with an event at
which the policy stops, or all of them if there is no such event. -/
def cut (policy : Policy) : List Event → List Event
  | [] => []
  | e :: rest =>
    match policy #[e] with
    | .stop => [e]
    | .proceed => e :: (policy.after [e]).cut rest

variable {policy : Policy} {past events told : List Event}

theorem after_nil (policy : Policy) : policy.after [] = policy := by
  funext events
  simp [after]

theorem after_after (policy : Policy) (a b : List Event) :
    (policy.after a).after b = policy.after (a ++ b) := by
  funext events
  simp [after]

theorem always_allows (events : List Event) : always.Allows events := fun _ _ _ => rfl

theorem allows_append (past events : List Event) :
    policy.Allows (past ++ events) ↔ policy.Allows past ∧ (policy.after past).Allows events := by
  constructor
  · intro h
    refine ⟨fun es hes => h es (hes.trans (List.prefix_append past events)), fun es hes hne => ?_⟩
    exact h (past ++ es) ((List.prefix_append_right_inj past).mpr hes) (by simp [hne])
  · rintro ⟨hpast, hevents⟩ es hes hne
    rcases List.prefix_or_prefix_of_prefix hes (List.prefix_append past events) with hin | hafter
    · exact hpast es hin hne
    · obtain ⟨more, rfl⟩ := hafter
      rcases eq_or_ne more [] with rfl | hmore
      · exact hpast _ (by simp) hne
      · exact hevents more ((List.prefix_append_right_inj past).mp hes) hmore

/-- A policy that stops a call stops the stream after the events of that call. -/
theorem answers_stop_append (hpast : policy.Allows past)
    (h : (policy.after past).Answers events .stop) : policy.Answers (past ++ events) .stop := by
  obtain ⟨before, last, rfl, hbefore, hstop⟩ := h
  exact ⟨past ++ before, last, (List.append_assoc past before [last]).symm,
    (allows_append past before).mpr ⟨hpast, hbefore⟩, hstop⟩

/-- Events after which the policy proceeds are not cut. -/
theorem cut_append (hpast : policy.Allows past) (events : List Event) :
    policy.cut (past ++ events) = past ++ (policy.after past).cut events := by
  induction past generalizing policy with
  | nil => rw [after_nil, List.nil_append, List.nil_append]
  | cons e past ih =>
    obtain ⟨hfirst, hrest⟩ := (allows_append [e] past).mp hpast
    have hproceed : policy #[e] = .proceed := hfirst [e] (List.prefix_refl _) (by simp)
    rw [List.cons_append, cut, hproceed]
    simp only
    rw [ih hrest, after_after, List.singleton_append, List.cons_append]

theorem cut_of_allows (h : policy.Allows events) : policy.cut events = events := by
  have hcut := cut_append h []
  rwa [List.append_nil, cut, List.append_nil] at hcut

/-- What follows the event at which the policy stops is cut off. -/
theorem cut_of_answers (h : policy.Answers told .stop) (hpre : told <+: events) :
    policy.cut events = told := by
  obtain ⟨before, last, rfl, hbefore, hstop⟩ := h
  obtain ⟨rest, rfl⟩ := hpre
  have hlast : policy.after before #[last] = .stop := hstop
  rw [List.append_assoc, cut_append hbefore, List.singleton_append, cut, hlast]

end Policy

/-! ## Reports of a whole stream -/

/-- The events of some reports, one after the other. -/
def toldIn (reports : List Report) : List Event := reports.flatMap Report.told

namespace Policy

/-- The policy does not stop any of the calls of a stream. -/
structure Completes (policy : Policy) (past : List Event) (reports : List Report) : Prop where
  completed : ∀ r ∈ reports, r.IsCompleted
  allows : policy.Allows (past ++ toldIn reports)

/-- The policy stops one of the calls of a stream: those before it are completed, it is
terminated after its last event, and those that follow are terminated and tell
nothing. -/
def StopsIn (policy : Policy) (past : List Event) (reports : List Report) : Prop :=
  ∃ before events rest, reports = before ++ .ok (.terminated, events) :: rest ∧
    (∀ r ∈ before, r.IsCompleted) ∧
    policy.Answers (past ++ toldIn before ++ events.toList) .stop ∧
    ∀ r ∈ rest, r = .ok (.terminated, #[])

/-- The reports of all the calls of a stream, which has one policy. -/
def Governs (policy : Policy) (reports : List Report) : Prop :=
  policy.Completes [] reports ∨ policy.StopsIn [] reports

end Policy

theorem toldIn_append (reports rest : List Report) :
    toldIn (reports ++ rest) = toldIn reports ++ toldIn rest := List.flatMap_append

theorem toldIn_one (status : Status) (events : Array Event) :
    toldIn [.ok (status, events)] = events.toList := List.append_nil _

theorem toldIn_stopped {rest : List Report} (h : ∀ r ∈ rest, r = .ok (.terminated, #[])) :
    toldIn rest = [] :=
  List.flatMap_eq_nil_iff.mpr fun r hr => by rw [h r hr]; rfl

namespace Policy

variable {policy : Policy} {past : List Event} {events : Array Event} {reports rest : List Report}

/-- The policy answers the events of the calls, and the last one of them stops. -/
theorem StopsIn.answers (h : policy.StopsIn past reports) :
    policy.Answers (past ++ toldIn reports) .stop := by
  obtain ⟨before, events, rest, rfl, -, hanswers, hrest⟩ := h
  rwa [List.append_cons, toldIn_append, toldIn_append, toldIn_stopped hrest, List.append_nil,
    toldIn_one, ← List.append_assoc]

theorem completes_one (h : policy.Allows (past ++ events.toList)) :
    policy.Completes past [.ok (.completed, events)] := by
  refine ⟨fun r hr => ⟨events, List.mem_singleton.mp hr⟩, ?_⟩
  rwa [toldIn_one]

theorem stopsIn_one (h : policy.Answers (past ++ events.toList) .stop)
    (hrest : ∀ r ∈ rest, r = .ok (.terminated, #[])) :
    policy.StopsIn past (.ok (.terminated, events) :: rest) :=
  ⟨[], events, rest, rfl, fun r hr => absurd hr List.not_mem_nil,
    by rwa [toldIn, List.flatMap_nil, List.append_nil], hrest⟩

/-- Calls that are completed, before others that are. -/
theorem Completes.append (h : policy.Completes past reports)
    (hrest : policy.Completes (past ++ toldIn reports) rest) :
    policy.Completes past (reports ++ rest) := by
  refine ⟨List.forall_mem_append.mpr ⟨h.completed, hrest.completed⟩, ?_⟩
  rw [toldIn_append, ← List.append_assoc]
  exact hrest.allows

/-- Calls that are completed, before others one of which the policy stops. -/
theorem Completes.append_stopsIn (h : policy.Completes past reports)
    (hrest : policy.StopsIn (past ++ toldIn reports) rest) :
    policy.StopsIn past (reports ++ rest) := by
  obtain ⟨before, events, more, rfl, hbefore, hanswers, hmore⟩ := hrest
  refine ⟨reports ++ before, events, more, (List.append_assoc ..).symm,
    List.forall_mem_append.mpr ⟨h.completed, hbefore⟩, ?_, hmore⟩
  rwa [toldIn_append, ← List.append_assoc past]

/-- The call that the policy stops comes after calls that are completed, or the calls
after it follow. -/
theorem StopsIn.snoc (h : policy.StopsIn past reports) :
    policy.StopsIn past (reports ++ [.ok (.terminated, #[])]) := by
  obtain ⟨before, last, rest, rfl, hbefore, hanswers, hrest⟩ := h
  refine ⟨before, last, rest ++ [.ok (.terminated, #[])], ?_, hbefore, hanswers, ?_⟩
  · simp
  · intro r hr
    rcases List.mem_append.mp hr with hr | hr
    · exact hrest r hr
    · exact List.mem_singleton.mp hr

end Policy

/-! ## One call -/

/-- A call with the policy of the stream either completes, and the policy proceeds
after all the events so far, or it is terminated by the first event at which the
policy stops. -/
theorem Program.Awaits.scans_after {p : Program} {stream region data : Bytes} {n : Nat}
    {past : List Event} {policy : Policy} {isFinal : Bool} (hp : p.Sound)
    (hsize : stream.size < 0x4000000000000000) (h : p.Awaits stream n past region)
    (hallows : policy.Allows past) (hdata : PartOf stream n data)
    (hfinal : isFinal = true → n + data.size = stream.size) :
    ∃ status events region',
      p.Scans region data isFinal (policy.after past) status events region' ∧
      (status = .completed ∧ policy.Allows (past ++ events.toList) ∧
          (if isFinal then past ++ events.toList = p.eventsOf (p.rawMatches stream)
            else p.Awaits stream (n + data.size) (past ++ events.toList) region') ∨
        status = .terminated ∧ policy.Answers (past ++ events.toList) .stop ∧
          past ++ events.toList <+: p.eventsOf (p.rawMatches stream) ∧ p.Owns region' 1) := by
  obtain ⟨resume, reported, states, hready⟩ := h
  obtain ⟨status, events, region', hscans, hleaves⟩ :=
    hready.scanChunk_spec hp hsize hdata hfinal (policy.after past)
  refine ⟨status, events, region', hscans, ?_⟩
  cases status with
  | completed =>
    obtain ⟨hproceeds, hafter⟩ := hleaves
    exact Or.inl ⟨rfl, (Policy.allows_append past _).mpr ⟨hallows, hproceeds⟩, hafter⟩
  | terminated =>
    obtain ⟨howns, hstops, reported', hpre, htold⟩ := hleaves
    refine Or.inr ⟨rfl, Policy.answers_stop_append hallows hstops, ?_, howns⟩
    rw [htold]
    exact Program.eventsOf_prefix hpre

/-- The last call of a stream. What the stream tells altogether is a part of what is
told without a policy that stops it. -/
theorem Program.Awaits.scans_last {p : Program} {stream region data : Bytes} {n : Nat}
    {past : List Event} {policy : Policy} (hp : p.Sound)
    (hsize : stream.size < 0x4000000000000000) (h : p.Awaits stream n past region)
    (hallows : policy.Allows past) (hdata : PartOf stream n data)
    (hlast : n + data.size = stream.size) :
    ∃ status events region',
      p.Scans region data true (policy.after past) status events region' ∧
      (policy.Completes past [.ok (status, events)] ∨
        policy.StopsIn past [.ok (status, events)]) ∧
      past ++ events.toList = policy.cut (p.eventsOf (p.rawMatches stream)) := by
  obtain ⟨status, events, region', hscans, hafter⟩ :=
    h.scans_after hp hsize hallows hdata fun _ => hlast
  refine ⟨status, events, region', hscans, ?_⟩
  rcases hafter with ⟨rfl, hproceeds, hevents⟩ | ⟨rfl, hstops, hpre, -⟩
  · rw [if_pos rfl] at hevents
    refine ⟨Or.inl (Policy.completes_one hproceeds), ?_⟩
    rw [← hevents, Policy.cut_of_allows hproceeds]
  · refine ⟨Or.inr (Policy.stopsIn_one hstops fun r hr => absurd hr List.not_mem_nil), ?_⟩
    rw [Policy.cut_of_answers hstops hpre]

/-! ## Streams that were stopped -/

namespace Stream

/-- The stream is not scanned anymore: each call is terminated without an event, and
leaves the stream as it is. Its state can be restored to and copied to the other
streams of the program. -/
structure Stopped (s : Stream) : Prop where
  isTerminated : s.isTerminated = .ok true
  scan : ∀ scratch data policy, scratch.validate s.program = .ok () →
    s.scan scratch data policy = .ok (.ok (.terminated, #[]), s, scratch)
  close : ∀ scratch policy m, scratch.validate s.program = .ok () →
    s.close scratch policy m = .ok (.ok (.terminated, #[]), scratch, s.release m)
  restore : ∀ other : Stream, other.program = s.program → other.state.size = s.state.size →
    other.restore s.state.bytes = (.ok (), other.withBytes s.state.bytes)
  copy : ∀ other : Stream, other.program = s.program → other.state.size = s.state.size →
    other.copyFrom s = .ok (other.withBytes s.state.bytes)

/-- The streams that have their state from a stream: it is scanned, or its state is
saved and restored, copied to or cloned as another stream of the program. -/
inductive GoesOn (s : Stream) : Stream → Prop where
  | refl : GoesOn s s
  | scan {t t' : Stream} {scratch left : Scratch} {data : Bytes} {policy : Policy}
      {report : Report} (h : GoesOn s t) (hvalid : scratch.validate t.program = .ok ())
      (hscan : t.scan scratch data policy = .ok (report, t', left)) : GoesOn s t'
  | restore {t other t' : Stream} (h : GoesOn s t) (hprogram : other.program = t.program)
      (hrestore : other.restore t.state.bytes = (.ok (), t')) : GoesOn s t'
  | copy {t other t' : Stream} (h : GoesOn s t) (hprogram : other.program = t.program)
      (hcopy : other.copyFrom t = .ok t') : GoesOn s t'
  | clone {t t' : Stream} {m m' : Memory} (h : GoesOn s t)
      (hclone : t.clone m = (.ok t', m')) : GoesOn s t'

variable {s : Stream} {p : Program}

theorem scanWith_terminated (hp : s.program.Sound) (hheader : s.program.validate = .ok ())
    (h : s.program.Owns s.state.bytes 1) {scratch : Scratch}
    (hvalid : scratch.validate s.program = .ok ()) (data : Bytes) (isFinal : Bool)
    (policy : Policy) :
    s.scanWith scratch data isFinal policy = .ok (.ok (.terminated, #[]), s, scratch) := by
  unfold scanWith
  rw [check_eq_ok hheader hvalid]
  simp only [h.scanChunk_terminated hp, Checked.ok_bind]
  rfl

/-- A state that was left by a stop stops each stream that has it. -/
theorem stopped_of_owns (hp : s.program.Sound) (hheader : s.program.validate = .ok ())
    (h : s.program.Owns s.state.bytes 1) : s.Stopped := by
  refine ⟨h.isTerminated_eq hp, ?_, ?_, ?_, ?_⟩
  · intro scratch data policy hvalid
    exact scanWith_terminated hp hheader h hvalid data false policy
  · intro scratch policy m hvalid
    unfold close
    rw [scanWith_terminated hp hheader h hvalid .empty true policy]
    rfl
  · intro other hprogram hsize
    unfold restore
    rw [if_neg (by simpa [Block.size] using hsize.symm), hprogram]
    simp only [h.validate_terminated]
  · intro other hprogram hsize
    unfold copyFrom
    rw [if_neg (by simp [hprogram, hsize])]

/-- A stream that goes on from one that was stopped has the same state. -/
theorem GoesOn.same_state {t : Stream} (hp : s.program.Sound)
    (hheader : s.program.validate = .ok ()) (hs : s.program.Owns s.state.bytes 1)
    (h : s.GoesOn t) :
    t.program = s.program ∧ t.state.bytes = s.state.bytes := by
  induction h with
  | refl => exact ⟨rfl, rfl⟩
  | @scan t t' scratch left data policy report _ hvalid hscan ih =>
    obtain ⟨hprogram, hbytes⟩ := ih
    rw [← hprogram] at hp hheader
    rw [← hprogram, ← hbytes] at hs
    rw [Stream.scan, scanWith_terminated hp hheader hs hvalid] at hscan
    cases hscan
    exact ⟨hprogram, hbytes⟩
  | @restore t other t' _ hprogram hrestore ih =>
    obtain ⟨-, rfl, -⟩ := of_restore_eq_ok hrestore
    exact ⟨hprogram.trans ih.1, ih.2⟩
  | @copy t other t' _ hprogram hcopy ih =>
    unfold copyFrom at hcopy
    split at hcopy
    · cases hcopy
    · cases hcopy
      exact ⟨hprogram.trans ih.1, ih.2⟩
  | @clone t t' m m' _ hclone ih =>
    unfold Stream.clone at hclone
    split at hclone
    · cases hclone
      exact ih
    · cases hclone

theorem GoesOn.stopped {t : Stream} (hp : s.program.Sound) (hheader : s.program.validate = .ok ())
    (hs : s.program.Owns s.state.bytes 1) (h : s.GoesOn t) : t.Stopped := by
  obtain ⟨hprogram, hbytes⟩ := h.same_state hp hheader hs
  refine stopped_of_owns (by rwa [hprogram]) (by rwa [hprogram]) ?_
  rwa [hprogram, hbytes]

/-! ## Scans with one policy -/

/-- Scans consecutive chunks, each with a scratch space of its own, with a policy that
answers each event from all those of the stream. The events `past` were before. -/
def scanAll (s : Stream) (policy : Policy) (past : List Event) :
    List (Scratch × Bytes) → Checked (List Report × Stream)
  | [] => return ([], s)
  | (scratch, data) :: rest => do
    let (report, s, _) ← s.scan scratch data (policy.after past)
    let (reports, s) ← scanAll s policy (past ++ report.told) rest
    return (report :: reports, s)

theorem scanAll_of_terminated (hp : s.program.Sound) (hheader : s.program.validate = .ok ())
    (h : s.program.Owns s.state.bytes 1) (policy : Policy) (past : List Event)
    {chunks : List (Scratch × Bytes)}
    (hvalid : ∀ c ∈ chunks, c.1.validate s.program = .ok ()) :
    ∃ reports, s.scanAll policy past chunks = .ok (reports, s) ∧
      ∀ r ∈ reports, r = .ok (.terminated, #[]) := by
  induction chunks generalizing past with
  | nil => exact ⟨[], rfl, fun r hr => absurd hr List.not_mem_nil⟩
  | cons c rest ih =>
    obtain ⟨scratch, data⟩ := c
    obtain ⟨hfirst, hrest⟩ := List.forall_mem_cons.mp hvalid
    obtain ⟨reports, hscan, hreports⟩ :=
      ih (past ++ Report.told (.ok (.terminated, #[]))) hrest
    refine ⟨.ok (.terminated, #[]) :: reports, ?_, List.forall_mem_cons.mpr ⟨rfl, hreports⟩⟩
    rw [scanAll, scan, scanWith_terminated hp hheader h hfirst]
    simp only [Checked.ok_bind, hscan, Checked.pure_eq]

/-- What the scans of some chunks leave. -/
theorem scanAll_spec {stream : Bytes} {n : Nat} {past : List Event} {policy : Policy}
    {chunks : List (Scratch × Bytes)} (hp : s.program.Sound)
    (hheader : s.program.validate = .ok ()) (hsize : stream.size < 0x4000000000000000)
    (h : s.program.Awaits stream n past s.state.bytes) (hallows : policy.Allows past)
    (hparts : PartOf stream n (join (chunks.map Prod.snd)))
    (hvalid : ∀ c ∈ chunks, c.1.validate s.program = .ok ()) :
    ∃ reports region, s.scanAll policy past chunks = .ok (reports, s.withBytes region) ∧
      (policy.Completes past reports ∧ s.program.Awaits stream
          (n + (join (chunks.map Prod.snd)).size) (past ++ toldIn reports) region ∨
        policy.StopsIn past reports ∧ s.program.Owns region 1 ∧
          past ++ toldIn reports <+: s.program.eventsOf (s.program.rawMatches stream)) := by
  induction chunks generalizing s n past with
  | nil =>
    refine ⟨[], s.state.bytes, rfl, Or.inl ⟨⟨fun r hr => absurd hr List.not_mem_nil, ?_⟩, ?_⟩⟩
    · rwa [toldIn, List.flatMap_nil, List.append_nil]
    · rwa [toldIn, List.flatMap_nil, List.append_nil]
  | cons c rest ih =>
    obtain ⟨scratch, data⟩ := c
    obtain ⟨hfirst, hrest⟩ := List.forall_mem_cons.mp hvalid
    rw [List.map_cons, join] at hparts ⊢
    have hnot : false = true → n + data.size = stream.size := fun hf => absurd hf (by decide)
    obtain ⟨status, events, mid, hscans, hafter⟩ :=
      h.scans_after hp hsize hallows hparts.of_append_left hnot
    obtain ⟨left, hscan, -⟩ := scanWith_of_scans hheader hfirst hscans
    rcases hafter with ⟨rfl, hproceeds, hawaits⟩ | ⟨rfl, hstops, hpre, howns⟩
    · rw [if_neg Bool.false_ne_true] at hawaits
      obtain ⟨reports, region, hscanAll, hpost⟩ := ih (s := s.withBytes mid) hp hheader hawaits
        hproceeds hparts.of_append_right hrest
      refine ⟨.ok (.completed, events) :: reports, region, ?_, ?_⟩
      · rw [scanAll, scan, hscan]
        simp only [Checked.ok_bind, Report.told, hscanAll, withBytes_withBytes, Checked.pure_eq]
      · rw [ByteArray.size_append, ← Nat.add_assoc, ← List.singleton_append, toldIn_append,
          toldIn_one, ← List.append_assoc]
        rw [← toldIn_one .completed events] at hpost ⊢
        have hone := Policy.completes_one hproceeds
        exact hpost.imp (fun hc => ⟨hone.append hc.1, hc.2⟩) fun hs =>
          ⟨hone.append_stopsIn hs.1, hs.2⟩
    · obtain ⟨reports, hscanAll, hreports⟩ := scanAll_of_terminated (s := s.withBytes mid) hp
        hheader howns policy (past ++ events.toList) hrest
      refine ⟨.ok (.terminated, events) :: reports, mid, ?_,
        Or.inr ⟨Policy.stopsIn_one hstops hreports, howns, ?_⟩⟩
      · rw [scanAll, scan, hscan]
        simp only [Checked.ok_bind, Report.told, hscanAll, Checked.pure_eq]
      · rwa [← List.singleton_append, toldIn_append, toldIn_one, toldIn_stopped hreports,
          List.append_nil]

/-- The scans of all chunks of a stream and its close. -/
theorem scanAll_close (policy : Policy) {chunks : List (Scratch × Bytes)} {scratch : Scratch}
    (hp : s.program.Sound) (hheader : s.program.validate = .ok ())
    (hstate : s.state.bytes = StreamState.initial s.program.streamSize s.program.checksum)
    (hsize : (join (chunks.map Prod.snd)).size < 0x4000000000000000)
    (hvalid : ∀ c ∈ chunks, c.1.validate s.program = .ok ())
    (hscratch : scratch.validate s.program = .ok ()) :
    ∃ reports s', s.scanAll policy [] chunks = .ok (reports, s') ∧
      ((∀ r ∈ reports, r.IsCompleted) ∨ ∀ t, s'.GoesOn t → t.Stopped) ∧
      ∀ m, ∃ last left, s'.close scratch (policy.after (toldIn reports)) m = .ok (last, left) ∧
        policy.Governs (reports ++ [last]) ∧
        toldIn (reports ++ [last]) =
          policy.cut (s.program.eventsOf (s.program.rawMatches (join (chunks.map Prod.snd)))) := by
  have hinitial := s.program.awaits_initial hp (join (chunks.map Prod.snd))
  rw [← hstate] at hinitial
  obtain ⟨reports, region, hscan, hafter⟩ := scanAll_spec hp hheader hsize hinitial
    policy.allows_nil (PartOf.refl _) hvalid
  refine ⟨reports, s.withBytes region, hscan, ?_⟩
  rcases hafter with ⟨hcompletes, hawaits⟩ | ⟨hstops, howns, hpre⟩
  · rw [List.nil_append, Nat.zero_add] at hawaits
    refine ⟨Or.inl hcompletes.completed, fun m => ?_⟩
    obtain ⟨status, events, region', hscans, hlast, hevents⟩ := hawaits.scans_last hp hsize
      hcompletes.allows (.empty (Nat.le_refl _)) (Nat.add_zero _)
    obtain ⟨left, m', hclose, -⟩ :=
      close_of_scans (s := s.withBytes region) hheader hscratch hscans m
    refine ⟨.ok (status, events), (left, m'), hclose, ?_, ?_⟩
    · exact hlast.imp (fun h => hcompletes.append h) fun h => hcompletes.append_stopsIn h
    · rwa [toldIn_append, toldIn_one]
  · have hgone : ∀ t, (s.withBytes region).GoesOn t → t.Stopped :=
      fun t ht => GoesOn.stopped (s := s.withBytes region) hp hheader howns ht
    refine ⟨Or.inr hgone, fun m => ?_⟩
    have hclose := (hgone _ .refl).close scratch (policy.after (toldIn reports)) m hscratch
    refine ⟨.ok (.terminated, #[]), (scratch, (s.withBytes region).release m), hclose,
      Or.inr hstops.snoc, ?_⟩
    rw [toldIn_append, toldIn_one, List.append_nil, Policy.cut_of_answers hstops.answers hpre]
    rfl

end Stream

/-- The scan of a block. -/
theorem Program.scanBlock_cut {p : Program} {scratch : Scratch} {data : Bytes} (hp : p.Sound)
    (hheader : p.validate = .ok ()) (hscratch : scratch.validate p = .ok ())
    (hsize : data.size < 0x4000000000000000) (policy : Policy) :
    ∃ report left, p.scanBlock scratch data policy = .ok (report, left) ∧
      policy.Governs [report] ∧
      toldIn [report] = policy.cut (p.eventsOf (p.rawMatches data)) := by
  obtain ⟨status, events, region, hscans, hlast, hevents⟩ := (p.awaits_initial hp data).scans_last
    hp hsize policy.allows_nil (PartOf.refl data) (Nat.zero_add _)
  rw [Policy.after_nil] at hscans
  obtain ⟨left, hscan⟩ := scanBlock_of_scans hp hheader hscratch hscans
  exact ⟨.ok (status, events), left, hscan, hlast, by rwa [toldIn_one]⟩

/-- A policy cuts what is told over the whole life of a stream off after the first
event at which it stops. The calls before are completed, and once it stopped no
stream that goes on from there is scanned. The scan of a block is cut alike. -/
theorem Stream.stopping_truncates {p : Program} (hp : p.Built)
    (hids : p.literals.size ≤ 0x100000000) {m m' : Memory} {s : Stream}
    (hstart : start p m = (.ok s, m')) (policy : Policy) {chunks : List (Scratch × Bytes)}
    (hsize : (join (chunks.map Prod.snd)).size < 0x4000000000000000)
    (hvalid : ∀ c ∈ chunks, c.1.validate p = .ok ()) {scratch : Scratch}
    (hscratch : scratch.validate p = .ok ()) :
    (∃ reports s' reports₀ s₀, s.scanAll policy [] chunks = .ok (reports, s') ∧
      s.scanAll .always [] chunks = .ok (reports₀, s₀) ∧
      ((∀ r ∈ reports, r.IsCompleted) ∨ ∀ t, s'.GoesOn t → t.Stopped) ∧
      ∀ m, ∃ last left last₀ left₀,
        s'.close scratch (policy.after (toldIn reports)) m = .ok (last, left) ∧
        s₀.close scratch .always m = .ok (last₀, left₀) ∧
        policy.Governs (reports ++ [last]) ∧
        toldIn (reports ++ [last]) = policy.cut (toldIn (reports₀ ++ [last₀]))) ∧
    ∀ data, data.size < 0x4000000000000000 → ∃ report left report₀ left₀,
      p.scanBlock scratch data policy = .ok (report, left) ∧
      p.scanBlock scratch data .always = .ok (report₀, left₀) ∧
      policy.Governs [report] ∧ toldIn [report] = policy.cut (toldIn [report₀]) := by
  have hsound := hp.sound hids
  obtain ⟨rfl, hstate⟩ := start_eq_ok hstart
  constructor
  · obtain ⟨reports, s', hscan, hgone, hclose⟩ :=
      scanAll_close policy hsound hp.validate hstate hsize hvalid hscratch
    obtain ⟨reports₀, s₀, hscan₀, -, hclose₀⟩ :=
      scanAll_close .always hsound hp.validate hstate hsize hvalid hscratch
    refine ⟨reports, s', reports₀, s₀, hscan, hscan₀, hgone, fun m => ?_⟩
    obtain ⟨last, left, hlast, hgoverns, htold⟩ := hclose m
    obtain ⟨last₀, left₀, hlast₀, -, htold₀⟩ := hclose₀ m
    refine ⟨last, left, last₀, left₀, hlast, hlast₀, hgoverns, ?_⟩
    rw [htold, htold₀, Policy.cut_of_allows (Policy.always_allows _)]
  · intro data hlt
    obtain ⟨report, left, hscan, hgoverns, htold⟩ :=
      s.program.scanBlock_cut hsound hp.validate hscratch hlt policy
    obtain ⟨report₀, left₀, hscan₀, -, htold₀⟩ :=
      s.program.scanBlock_cut hsound hp.validate hscratch hlt .always
    refine ⟨report, left, report₀, left₀, hscan, hscan₀, hgoverns, ?_⟩
    rw [htold, htold₀, Policy.cut_of_allows (Policy.always_allows _)]

/-- A stream of the small program that is stopped by its first event. -/
theorem smallProgram_stopping : ∃ s m, Stream.start smallProgram { allocator := .system } =
      (.ok s, m) ∧
    (∃ reports s' reports₀ s₀,
      s.scanAll (.stopAt (some 1)) [] [(.smallest smallProgram, .ofList [97, 98]),
        (.smallest smallProgram, .ofList [98])] = .ok (reports, s') ∧
      s.scanAll .always [] [(.smallest smallProgram, .ofList [97, 98]),
        (.smallest smallProgram, .ofList [98])] = .ok (reports₀, s₀) ∧
      ((∀ r ∈ reports, r.IsCompleted) ∨ ∀ t, s'.GoesOn t → t.Stopped) ∧
      ∀ m, ∃ last left last₀ left₀,
        s'.close (.smallest smallProgram) (Policy.after (.stopAt (some 1)) (toldIn reports)) m =
          .ok (last, left) ∧
        s₀.close (.smallest smallProgram) .always m = .ok (last₀, left₀) ∧
        Policy.Governs (.stopAt (some 1)) (reports ++ [last]) ∧
        toldIn (reports ++ [last]) =
          Policy.cut (.stopAt (some 1)) (toldIn (reports₀ ++ [last₀]))) ∧
    ∀ data, data.size < 0x4000000000000000 → ∃ report left report₀ left₀,
      smallProgram.scanBlock (.smallest smallProgram) data (.stopAt (some 1)) =
        .ok (report, left) ∧
      smallProgram.scanBlock (.smallest smallProgram) data .always = .ok (report₀, left₀) ∧
      Policy.Governs (.stopAt (some 1)) [report] ∧
      toldIn [report] = Policy.cut (.stopAt (some 1)) (toldIn [report₀]) := by
  obtain ⟨s, m, hstart⟩ := smallProgram_start
  refine ⟨s, m, hstart, Stream.stopping_truncates smallProgram_built smallProgram_ids hstart _
    (by decide) ?_ (Scratch.validate_smallest _)⟩
  simp [Scratch.validate_smallest]

end StreamMatch
