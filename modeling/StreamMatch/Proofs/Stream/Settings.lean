-- The settings never change the matches. Programs that were built from the same
-- patterns give the same reports for all data, in all chunks and with all policies,
-- however their settings track the repeats.
import StreamMatch.Proofs.Scan.Twins
import StreamMatch.Proofs.Stream.Calls

namespace StreamMatch

open Bytes Checked

namespace Program

variable {p : Program} {settings : Settings} {stream a b data : Bytes} {n : Nat}
  {isFinal : Bool}

/-- A program that was built can be used with all settings that are accepted. -/
theorem admits_of_build {d : Draft} (hd : d.Sound) (hbuild : d.build = .ok p)
    (hcheck : settings.check = .ok ()) (hids : p.literals.size ≤ 0x100000000) :
    p.Admits settings := by
  have hwith := Draft.build_withSettings hbuild hcheck
  refine ⟨Draft.sound_of_build hd hbuild hids, Draft.sound_of_build ?_ hwith hids,
    Draft.rankOf_lt_of_build hbuild hids⟩
  exact ⟨hd.patterns, hd.automata⟩

/-! ## Scans -/

/-- States of the two programs after the same bytes, which say the same. -/
structure TwinsAfter (p : Program) (settings : Settings) (stream : Bytes) (n : Nat) (a b : Bytes) :
    Prop where
  twins : p.Twins settings a b
  left : p.StateAfter stream n a
  right : (p.withSettings settings).StateAfter stream n b

theorem twinsAfter_initial (hp : p.Admits settings) (stream : Bytes) :
    p.TwinsAfter settings stream 0 (StreamState.initial p.streamSize p.checksum)
      (StreamState.initial (p.withSettings settings).streamSize
        (p.withSettings settings).checksum) := by
  have hready := ready_initial hp.sound stream
  have hready' := ready_initial hp.soundWith stream
  have hle := hready.owns.header_le hp.sound
  have hle' := hready'.owns.header_le hp.soundWith
  rw [StreamState.size_initial] at hle hle'
  refine ⟨⟨StreamState.size_initial _ _, StreamState.size_initial _ _, ?_, ?_⟩, stateAfter_initial hp.sound stream,
    stateAfter_initial hp.soundWith stream⟩
  · intro i hi _
    rw [byteAt_initial_of_le _ (by omega) hi, byteAt_initial_of_le _ (by omega) hi]
  · intro r hr
    exact ⟨.start, hready.keeps.tracks r hr,
      hready'.keeps.tracks _ (mem_withSettings settings hr)⟩

/-- From states that say the same, two scans of a chunk give the same report. -/
theorem TwinsAfter.scanChunk (hp : p.Admits settings) (hsize : stream.size < 0x4000000000000000)
    (h : p.TwinsAfter settings stream n a b) (hdata : PartOf stream n data) (isFinal : Bool)
    (policy : Policy) {buffers : Buffers} (hfit : buffers.Fit p) :
    Agree (fun x y => x.report = y.report ∧ p.Twins settings x.region y.region)
      (p.scanChunk a buffers data isFinal policy)
      ((p.withSettings settings).scanChunk b buffers data isFinal policy) := by
  have hterminated := h.twins.isTerminated_eq hp
  -- Both states wait or both were stopped: the flag says which, and it is the same.
  rcases h.left with ⟨past, resume, reported, states, hready⟩ | howns
  · rcases h.right with ⟨past', resume', reported', states', hready'⟩ | howns'
    · exact scanChunk_twins hp h.twins hsize hready hready' hdata isFinal policy hfit
    · rw [hready.owns.isTerminated_eq hp.sound, howns'.isTerminated_eq hp.soundWith] at hterminated
      cases hterminated
  · rcases h.right with ⟨past', resume', reported', states', hready'⟩ | howns'
    · rw [howns.isTerminated_eq hp.sound, hready'.owns.isTerminated_eq hp.soundWith] at hterminated
      cases hterminated
    · obtain ⟨_, -, hscan⟩ := howns.scans_terminated hp.sound data isFinal policy buffers hfit
      obtain ⟨_, -, hscan'⟩ := howns'.scans_terminated hp.soundWith data isFinal policy buffers
        ⟨hfit.seam_le, hfit.window_le, hfit.ties_le⟩
      rw [hscan, hscan']
      exact Agree.of_ok ⟨rfl, h.twins⟩

theorem TwinsAfter.scans (hp : p.Admits settings) (hsize : stream.size < 0x4000000000000000)
    (h : p.TwinsAfter settings stream n a b) (hdata : PartOf stream n data)
    (hfinal : isFinal = true → n + data.size = stream.size) (policy : Policy) :
    ∃ status events a' b', p.Scans a data isFinal policy status events a' ∧
      (p.withSettings settings).Scans b data isFinal policy status events b' ∧
      (isFinal = false → p.TwinsAfter settings stream (n + data.size) a' b') := by
  obtain ⟨status, events, a', hscans, hafter⟩ :=
    h.left.exists_scan hp.sound hsize hdata hfinal policy
  obtain ⟨status', events', b', hscans', hafter'⟩ :=
    h.right.exists_scan hp.soundWith hsize hdata hfinal policy
  have hfit := Scratch.fit_of_validate (Scratch.validate_smallest p)
  obtain ⟨_, -, hscan⟩ := hscans _ hfit
  obtain ⟨_, -, hscan'⟩ := hscans' _ ⟨hfit.seam_le, hfit.window_le, hfit.ties_le⟩
  obtain ⟨hreport, htwins⟩ := h.scanChunk hp hsize hdata isFinal policy hfit _ _ hscan hscan'
  cases hreport
  exact ⟨status, events, a', b', hscans, hscans', fun hf => ⟨htwins, hafter hf, hafter' hf⟩⟩

/-- Consecutive chunks give the same outcomes. -/
theorem TwinsAfter.runs (hp : p.Admits settings) (hsize : stream.size < 0x4000000000000000)
    {requests : List (Bytes × Policy)} (h : p.TwinsAfter settings stream n a b)
    (hparts : PartOf stream n (join (requests.map Prod.fst))) :
    ∃ outcomes a' b', p.Runs a requests outcomes a' ∧
      (p.withSettings settings).Runs b requests outcomes b' ∧
      p.TwinsAfter settings stream (n + (join (requests.map Prod.fst)).size) a' b' := by
  induction requests generalizing n a b with
  | nil => exact ⟨[], a, b, .nil a, .nil b, h⟩
  | cons request rest ih =>
    obtain ⟨data, policy⟩ := request
    rw [List.map_cons, join] at hparts ⊢
    have hnot : false = true → n + data.size = stream.size := fun hf => absurd hf (by decide)
    obtain ⟨status, events, a₁, b₁, hscans, hscans', hmid⟩ :=
      h.scans hp hsize hparts.of_append_left hnot policy
    obtain ⟨outcomes, a', b', hruns, hruns', hafter⟩ := ih (hmid rfl) hparts.of_append_right
    refine ⟨(status, events) :: outcomes, a', b', .cons hscans hruns, .cons hscans' hruns', ?_⟩
    rwa [ByteArray.size_append, ← Nat.add_assoc]

/-! ## Blocks and streams -/

/-- Two programs give the same reports for all data: as a single block, and as the
chunks of a stream that is closed at last, whatever the policies are and whichever
scratch spaces are used. -/
structure SameMatches (p q : Program) : Prop where
  blocks : ∀ (data : Bytes) (policy : Policy) (scratch scratch' : Scratch),
    data.size < 0x4000000000000000 → scratch.validate p = .ok () →
    scratch'.validate q = .ok () →
    ∃ outcome left left', p.scanBlock scratch data policy = .ok (.ok outcome, left) ∧
      q.scanBlock scratch' data policy = .ok (.ok outcome, left')
  streams : ∀ (m m₁ m' m₁' : Memory) (s s' : Stream) (calls calls' : List Call),
    Stream.start p m = (.ok s, m₁) → Stream.start q m' = (.ok s', m₁') →
    calls.map Call.request = calls'.map Call.request →
    (∀ c ∈ calls, c.scratch.validate p = .ok ()) →
    (∀ c ∈ calls', c.scratch.validate q = .ok ()) →
    (join (calls.map Call.data)).size < 0x4000000000000000 →
    ∃ results results' last last', s.scanCalls calls = .ok (results, last) ∧
      s'.scanCalls calls' = .ok (results', last') ∧
      results.map Prod.fst = results'.map Prod.fst ∧
      (∀ r ∈ results, ∃ outcome, r.1 = .ok outcome) ∧
      ∀ scratch scratch' policy m m', scratch.validate p = .ok () →
        scratch'.validate q = .ok () →
        ∃ outcome left left', last.close scratch policy m = .ok (.ok outcome, left) ∧
          last'.close scratch' policy m' = .ok (.ok outcome, left')

/-- A block is scanned as a stream of its own. -/
theorem scanBlock_twins (hp : p.Admits settings) (hheader : p.validate = .ok ())
    (hsize : data.size < 0x4000000000000000) (policy : Policy) {scratch scratch' : Scratch}
    (hscratch : scratch.validate p = .ok ())
    (hscratch' : scratch'.validate (p.withSettings settings) = .ok ()) :
    ∃ outcome left left', p.scanBlock scratch data policy = .ok (.ok outcome, left) ∧
      (p.withSettings settings).scanBlock scratch' data policy = .ok (.ok outcome, left') := by
  obtain ⟨status, events, a, b, hscans, hscans', -⟩ := (twinsAfter_initial hp data).scans hp hsize
    (.refl data) (fun _ => Nat.zero_add data.size) policy
  obtain ⟨left, hblock⟩ := scanBlock_of_scans hp.sound hheader hscratch hscans
  have hheader' : (p.withSettings settings).validate = .ok () := hheader
  obtain ⟨left', hblock'⟩ := scanBlock_of_scans hp.soundWith hheader' hscratch' hscans'
  exact ⟨(status, events), left, left', hblock, hblock'⟩

end Program

namespace Stream

variable {settings : Settings} {stream a b : Bytes} {s s' : Stream}

/-- Streams with states that say the same are closed with the same report. -/
theorem close_twins (hp : s.program.Admits settings) (hheader : s.program.validate = .ok ())
    (hsize : stream.size < 0x4000000000000000)
    (hprogram : s'.program = s.program.withSettings settings)
    (h : s.program.TwinsAfter settings stream stream.size a b)
    {scratch scratch' : Scratch} (policy : Policy) (m m' : Memory)
    (hscratch : scratch.validate s.program = .ok ())
    (hscratch' : scratch'.validate s'.program = .ok ()) :
    ∃ outcome left left', (s.withBytes a).close scratch policy m = .ok (.ok outcome, left) ∧
      (s'.withBytes b).close scratch' policy m' = .ok (.ok outcome, left') := by
  have hlast : true = true → stream.size + ByteArray.empty.size = stream.size :=
    fun _ => Nat.add_zero _
  have hheader' : s'.program.validate = .ok () := by
    rw [hprogram]
    exact hheader
  obtain ⟨status, events, a', b', hscans, hscans', -⟩ :=
    h.scans hp hsize (.empty (Nat.le_refl _)) hlast policy
  rw [← hprogram] at hscans'
  obtain ⟨left, m₁, hclose, -⟩ :=
    close_of_scans (s := s.withBytes a) hheader hscratch hscans m
  obtain ⟨left', m₁', hclose', -⟩ :=
    close_of_scans (s := s'.withBytes b) hheader' hscratch' hscans' m'
  exact ⟨(status, events), (left, m₁), (left', m₁'), hclose, hclose'⟩

end Stream

/-- A program gives the same reports with all settings. -/
theorem Program.sameMatches_withSettings {p : Program} {settings : Settings}
    (hp : p.Admits settings) (hheader : p.validate = .ok ()) :
    p.SameMatches (p.withSettings settings) := by
  refine ⟨fun data policy scratch scratch' hsize hscratch hscratch' =>
    scanBlock_twins hp hheader hsize policy hscratch hscratch', ?_⟩
  intro m m₁ m' m₁' s s' calls calls' hstart hstart' hsame hcalls hcalls' hsize
  obtain ⟨rfl, hstate⟩ := Stream.start_eq_ok hstart
  obtain ⟨hprogram, hstate'⟩ := Stream.start_eq_ok hstart'
  have hheader' : s'.program.validate = .ok () := by
    rw [hprogram]
    exact hheader
  rw [← Call.map_fst_request] at hsize
  obtain ⟨outcomes, a, b, hruns, hruns', hafter⟩ :=
    (twinsAfter_initial hp _).runs hp hsize (.refl (join ((calls.map Call.request).map Prod.fst)))
  rw [← hstate] at hruns
  rw [← hstate', ← hprogram, hsame] at hruns'
  rw [← hprogram] at hcalls'
  obtain ⟨results, hscan, hreports, -⟩ := Stream.scanCalls_of_runs hheader hcalls hruns
  obtain ⟨results', hscan', hreports', -⟩ := Stream.scanCalls_of_runs hheader' hcalls' hruns'
  rw [Nat.zero_add] at hafter
  refine ⟨results, results', s.withBytes a, s'.withBytes b, hscan, hscan',
    hreports.trans hreports'.symm, fun r hr => Stream.exists_outcome hreports hr, ?_⟩
  intro scratch scratch' policy m m' hscratch hscratch'
  rw [← hprogram] at hscratch'
  exact Stream.close_twins hp hheader hsize hprogram hafter policy m m' hscratch hscratch'

/-- What was built with some settings can be built with all the settings that are
accepted, to a program with the same matches. -/
theorem settings_keep_matches {settings settings' : Settings} {additions : List Addition}
    {p : Program} (hbuild : (Draft.addEach { settings } additions).1.build = .ok p)
    (hids : p.literals.size ≤ 0x100000000) (hcheck : settings'.check = .ok ()) :
    ∃ q, (Draft.addEach { settings := settings' } additions).1.build = .ok q ∧
      p.SameMatches q := by
  have hbuilt : p.Built := ⟨settings, additions, hbuild⟩
  have hdraft := (Draft.sound_empty settings .current).addEach additions
  have hsame := Draft.addEach_withSettings { settings } settings' additions
  refine ⟨p.withSettings settings', ?_, ?_⟩
  · have hother := Draft.build_withSettings hbuild hcheck
    rw [show (Draft.addEach { settings := settings' } additions).1 =
      (Draft.addEach { settings } additions).1.withSettings settings' from congrArg Prod.fst hsame]
    exact hother
  · exact Program.sameMatches_withSettings (Program.admits_of_build hdraft hbuild hcheck hids)
      hbuilt.validate

/-- The repeat of the small program is tracked with a bitmap, and with other settings
with a ring. -/
theorem smallProgram_settings : ({ bitmapLimit := 0, ringLimit := 65534 } : Settings).check =
      .ok () ∧
    ∃ q, (Draft.addEach { settings := { bitmapLimit := 0, ringLimit := 65534 } }
        smallAdditions).1.build = .ok q ∧
      smallProgram.repeats.toList.map Repeat.tracking = [.bitmap] ∧
      q.repeats.toList.map Repeat.tracking = [.ring] ∧ smallProgram.SameMatches q := by
  have hsmall : (Draft.addEach { settings := {} } smallAdditions).1.build = .ok smallProgram := by
    rfl
  have hcheck : ({ bitmapLimit := 0, ringLimit := 65534 } : Settings).check = .ok () := by decide
  obtain ⟨q, hbuild, hsame⟩ := settings_keep_matches hsmall smallProgram_ids hcheck
  have htracking : ((Draft.addEach { settings := { bitmapLimit := 0, ringLimit := 65534 } }
      smallAdditions).1.build.map fun q => q.repeats.toList.map Repeat.tracking) = .ok [.ring] := by
    rfl
  rw [hbuild] at htracking
  exact ⟨hcheck, q, hbuild, by rfl, Except.ok.inj htracking, hsame⟩

end StreamMatch
