-- Streams that share a scratch space. Whatever else is scanned with the scratch space
-- in between, what a stream tells and the state that it has at last are those of a
-- session where nothing else is scanned.
import StreamMatch.Proofs.Session.Sharing

namespace StreamMatch

open Bytes

namespace Session

variable {s s₁ s' alone : Session} {scratch name : String} {c : Command} {rest : List Command}

/-! ## Commands one after the other -/

/-- The streams of a session have at most the bytes that some commands scan left. -/
def Within (s : Session) (commands : List Command) : Prop :=
  ∀ name p region, s.view name = some (p, region) → ∃ seen, p.Reached seen region ∧
    seen.size + Command.total name commands < 0x4000000000000000

/-- A command leaves all streams as they are that it is not for. -/
theorem Within.next (h : s.Within (c :: rest))
    (hothers : ∀ other, c.stream? ≠ some other → s₁.view other = s.view other)
    (hown : ∀ own, c.stream? = some own → ∀ p region, s₁.view own = some (p, region) →
      ∃ seen, p.Reached seen region ∧
        seen.size + Command.total own rest < 0x4000000000000000) : s₁.Within rest := by
  intro other p region hv
  by_cases hc : c.stream? = some other
  · exact hown other hc p region hv
  · rw [hothers other hc] at hv
    obtain ⟨seen, hreached, hsize⟩ := h other p region hv
    rw [Command.total_cons_of_ne hc] at hsize
    exact ⟨seen, hreached, hsize⟩

/-- A session reproduces the run of another one: the commands for one stream alone get the
replies of the run and leave the same state, and so does the scan of one block. -/
structure Reproduces (alone s s' : Session) (commands : List Command)
    (transcript : List (Command × Reply)) : Prop where
  streams : ∀ name, alone.view name = s.view name → ∃ after,
    alone.run (Command.forStream name commands) =
      .ok (transcript.filter (·.1.stream? == some name), after) ∧
    after.view name = s'.view name
  blocks : ∀ r ∈ transcript, ∀ program, r.1.program? = some program →
    alone.programs[program]? = s.programs[program]? → ∃ after, alone.step r.1 = .ok (after, r.2)

section Reproduces

variable {transcript : List (Command × Reply)} {reply : Reply}

/-- A command that is for no stream comes before a run. -/
theorem Reproduces.cons_block (h : alone.Reproduces s₁ s' rest transcript)
    (hc : c.stream? = none) (hprograms : s₁.programs = s.programs) (hviews : s₁.view = s.view)
    (hstep : ∀ program, c.program? = some program →
      alone.programs[program]? = s.programs[program]? → ∃ after, alone.step c = .ok (after, reply)) :
    alone.Reproduces s s' (c :: rest) ((c, reply) :: transcript) := by
  obtain ⟨hstreams, hblocks⟩ := h
  rw [hviews] at hstreams
  rw [hprograms] at hblocks
  refine ⟨fun name hview => ?_, List.forall_mem_cons.mpr ⟨hstep, hblocks⟩⟩
  rw [Command.forStream_cons_of_ne (by simp [hc]), List.filter_cons_of_neg (by simp [hc])]
  exact hstreams name hview

/-- A command for a stream comes before a run. It is performed in the other session too, if
that has the same state of the stream. -/
theorem Reproduces.cons_stream (h : alone.Reproduces s₁ s' rest transcript)
    (hc : c.stream? = some name) (hprogram : c.program? = none)
    (hfollows : s.Follows s₁ scratch name)
    (hstep : alone.view name = s.view name → ∃ alone₁, alone.step c = .ok (alone₁, reply) ∧
      alone₁.view name = s₁.view name ∧ alone₁.Reproduces s₁ s' rest transcript) :
    alone.Reproduces s s' (c :: rest) ((c, reply) :: transcript) := by
  obtain ⟨hstreams, hblocks⟩ := h
  rw [hfollows.programs_eq] at hblocks
  refine ⟨fun other hview => ?_, List.forall_mem_cons.mpr ⟨fun program heq => ?_, hblocks⟩⟩
  · by_cases heq : other = name
    · subst heq
      obtain ⟨alone₁, hfirst, hview₁, hrest⟩ := hstep hview
      obtain ⟨after, hafter, hlast⟩ := hrest.streams other hview₁
      refine ⟨after, ?_, hlast⟩
      rw [Command.forStream_cons_self hc, List.filter_cons_of_pos (by simp [hc])]
      exact run_cons hfirst hafter
    · rw [Command.forStream_cons_of_ne (by simpa [hc] using Ne.symm heq),
        List.filter_cons_of_neg (by simpa [hc] using Ne.symm heq)]
      exact hstreams other (hview.trans (hfollows.others other heq).symm)
  · cases hprogram.symm.trans heq

end Reproduces

/-! ## Whole sessions -/

theorem Shares.sound_of_view (h : s.Shares scratch) {p : Program} {region : Bytes}
    (hv : s.view name = some (p, region)) : p.Sound := by
  obtain ⟨o, ho, rfl, -⟩ := exists_of_view hv
  obtain ⟨hbuilt, hids⟩ := h.programs _ (h.streams name o ho).1
  exact hbuilt.sound hids

/-- A command for a stream does the same in each session where the stream has the same
state. -/
theorem Shares.exists_reply (h : s.Shares scratch)
    (hwithin : s.Within (c :: rest)) (hc : c.stream? = some name) (hwork : c.WorksWith scratch) :
    ∃ reply v, (∀ t : Session, t.Shares scratch → t.view name = s.view name →
        ∃ t', t.step c = .ok (t', reply) ∧ t.Follows t' scratch name ∧ t'.view name = v) ∧
      ∀ p region, v = some (p, region) → ∃ seen, p.Reached seen region ∧
        seen.size + Command.total name rest < 0x4000000000000000 := by
  rcases hv : s.view name with _ | ⟨p, region⟩
  · refine ⟨.unknownName, none, fun t ht hview => ?_, fun p region heq => by cases heq⟩
    exact ⟨t, step_unknown hc hview, ht.refl name, hview⟩
  · have hp := h.sound_of_view hv
    obtain ⟨seen, hreached, hsize⟩ := hwithin name p region hv
    rw [Command.total_cons_self hc] at hsize
    cases c with
    | scan _ other data policy =>
      cases hc
      obtain rfl : other = scratch := hwork
      have hlength : Command.length (.scan name other data policy) = data.size := rfl
      obtain ⟨status, events, region', hscans, hreached'⟩ :=
        hreached.exists_scan hp (show seen.size + data.size < _ by omega) policy
      refine ⟨.scanned (.ok (status, events)), some (p, region'),
        fun t ht hview => ht.scan hview hscans, ?_⟩
      rintro _ _ ⟨⟩
      refine ⟨seen ++ data, hreached', ?_⟩
      rw [ByteArray.size_append]
      omega
    | close _ other policy =>
      cases hc
      obtain rfl : other = scratch := hwork
      obtain ⟨status, events, region', hscans⟩ := hreached.exists_close hp (by omega) policy
      exact ⟨.scanned (.ok (status, events)), none,
        fun t ht hview => ht.close hview hscans, fun _ _ heq => by cases heq⟩
    | reset =>
      cases hc
      refine ⟨.done, some (p, StreamState.initial region.size p.checksum),
        fun t ht hview => ht.reset hview, ?_⟩
      rintro _ _ ⟨⟩
      rw [hreached.size_eq (by omega)]
      exact ⟨.empty, .initial hp, by rw [ByteArray.size_empty]; omega⟩
    | _ => cases hc

/-- A block is scanned alike in each session where the program is the same. -/
theorem Shares.exists_block_reply (h : s.Shares scratch) {program : Nat}
    (hc : c.program? = some program) (hwork : c.WorksWith scratch)
    (hlength : c.length < 0x4000000000000000) :
    ∃ reply, ∀ t : Session, t.Shares scratch → t.programs[program]? = s.programs[program]? →
      ∃ t', t.step c = .ok (t', reply) ∧ t'.Shares scratch ∧ t'.programs = t.programs ∧
        t'.view = t.view := by
  cases c with
  | scanBlock _ other data policy =>
    cases hc
    obtain rfl : other = scratch := hwork
    rcases hp : s.programs[program]? with _ | p
    · refine ⟨.unknownName, fun t ht hprogram => ⟨t, ?_, ht, rfl, rfl⟩⟩
      exact step_of_error (run_bind_error (run_unknown hprogram))
    · obtain ⟨hbuilt, hids⟩ := h.programs p (Array.mem_of_getElem? hp)
      have hsound := hbuilt.sound hids
      obtain ⟨status, events, region, hscans, -⟩ := (p.stateAfter_initial hsound data).exists_scan
        hsound hlength (PartOf.refl data) (fun _ => Nat.zero_add _) policy
      exact ⟨.scanned (.ok (status, events)), fun t ht hprogram => ht.scanBlock hprogram hscans⟩
  | _ => cases hc

/-- Commands that work with one scratch space can be performed, and each stream gets
the replies and the state that it gets when only its commands are. -/
theorem Shares.run {commands : List Command} (h : s.Shares scratch)
    (hwork : ∀ c ∈ commands, c.WorksWith scratch) (hwithin : s.Within commands)
    (hlength : ∀ c ∈ commands, c.length < 0x4000000000000000) :
    ∃ transcript s', s.run commands = .ok (transcript, s') ∧
      transcript.map Prod.fst = commands ∧
      ∀ alone : Session, alone.Shares scratch → alone.Reproduces s s' commands transcript := by
  induction commands generalizing s with
  | nil =>
    refine ⟨[], s, rfl, rfl, fun alone _ => ⟨fun name hview => ⟨alone, rfl, hview⟩, ?_⟩⟩
    exact fun r hr => absurd hr List.not_mem_nil
  | cons c rest ih =>
    obtain ⟨hfirst, hwork⟩ := List.forall_mem_cons.mp hwork
    obtain ⟨hlt, hlength⟩ := List.forall_mem_cons.mp hlength
    rcases hc : c.stream? with _ | name
    · obtain ⟨program, hprogram⟩ := Command.exists_program hfirst hc
      obtain ⟨reply, hreply⟩ := h.exists_block_reply hprogram hfirst hlt
      obtain ⟨s₁, hstep, hshares, hprograms, hviews⟩ := hreply s h rfl
      have hwithin₁ : s₁.Within rest := hwithin.next (fun other _ => congrFun hviews other)
        fun own hown => by cases hc.symm.trans hown
      obtain ⟨transcript, s', hrun, hcommands, halone⟩ := ih hshares hwork hwithin₁ hlength
      refine ⟨(c, reply) :: transcript, s', run_cons hstep hrun, by rw [List.map_cons, hcommands],
        fun alone hshares' => (halone alone hshares').cons_block hc hprograms hviews ?_⟩
      intro program' hprogram' hsame
      cases hprogram.symm.trans hprogram'
      obtain ⟨after, hafter, -⟩ := hreply alone hshares' hsame
      exact ⟨after, hafter⟩
    · obtain ⟨reply, v, hreply, hleft⟩ := h.exists_reply hwithin hc hfirst
      obtain ⟨s₁, hstep, hfollows, hview₁⟩ := hreply s h rfl
      have hwithin₁ : s₁.Within rest := by
        refine hwithin.next (fun other hne => hfollows.others other ?_) fun own hown => ?_
        · rintro rfl
          exact hne hc
        · cases hc.symm.trans hown
          rwa [hview₁]
      obtain ⟨transcript, s', hrun, hcommands, halone⟩ := ih hfollows.shares hwork hwithin₁ hlength
      refine ⟨(c, reply) :: transcript, s', run_cons hstep hrun, by rw [List.map_cons, hcommands],
        fun alone hshares' => (halone alone hshares').cons_stream hc
          (Command.program?_eq_none hc) hfollows fun hview => ?_⟩
      obtain ⟨alone₁, hstep', hfollows', hview'⟩ := hreply alone hshares' hview
      exact ⟨alone₁, hstep', hview'.trans hview₁.symm, halone alone₁ hfollows'.shares⟩

/-! ## Streams that were opened -/

/-- The streams of a session were just opened, and all of its programs can be used with
one scratch space. What the scratch space holds, and what the memory of the streams
held before, can be anything. -/
structure Opened (s : Session) (scratch : String) : Prop extends s.Shares scratch where
  opened : ∀ name o, s.streams.find? name = some o →
    ∃ m m', Stream.start o.value.program m = (.ok o.value, m')

/-- The program of a stream, if there is one with the given name. -/
def programOf (s : Session) (name : String) : Option Program :=
  (s.streams.find? name).map (·.value.program)

theorem Opened.view_eq (h : s.Opened scratch) (name : String) :
    s.view name =
      (s.programOf name).map fun p => (p, StreamState.initial p.streamSize p.checksum) := by
  unfold view programOf
  rw [Option.map_map]
  refine Option.map_congr fun o ho => ?_
  obtain ⟨m, m', hstart⟩ := h.opened name o ho
  rw [(Stream.start_eq_ok hstart).2]
  rfl

theorem Opened.within (h : s.Opened scratch) {commands : List Command}
    (htotal : ∀ name, Command.total name commands < 0x4000000000000000) : s.Within commands := by
  intro name p region hv
  have hp := h.sound_of_view hv
  rw [h.view_eq name] at hv
  obtain ⟨p', -, heq⟩ := Option.map_eq_some_iff.mp hv
  cases heq
  have hnothing : ByteArray.empty.size = 0 := rfl
  have hlt := htotal name
  exact ⟨.empty, .initial hp, by omega⟩

/-- The commands can be performed. The commands for one stream alone get the same replies
and leave the same state in each session where a stream of the same program was opened,
with a scratch space of its own, and the scan of a block gets the same reply in each
session that has the program. -/
def Independent (s : Session) (scratch : String) (commands : List Command) : Prop :=
  ∃ transcript s', s.run commands = .ok (transcript, s') ∧ transcript.map Prod.fst = commands ∧
    ∀ alone : Session, alone.Opened scratch →
      (∀ name, alone.programOf name = s.programOf name → ∃ after,
        alone.run (Command.forStream name commands) =
          .ok (transcript.filter (·.1.stream? == some name), after) ∧
        after.view name = s'.view name) ∧
      ∀ r ∈ transcript, ∀ program, r.1.program? = some program →
        alone.programs[program]? = s.programs[program]? →
        ∃ after, alone.step r.1 = .ok (after, r.2)

/-- Streams that share a scratch space, and blocks that are scanned with it in between,
do not influence each other. -/
theorem streams_independent (h : s.Opened scratch) {commands : List Command}
    (hwork : ∀ c ∈ commands, c.WorksWith scratch)
    (htotal : ∀ name, Command.total name commands < 0x4000000000000000)
    (hlength : ∀ c ∈ commands, c.length < 0x4000000000000000) :
    s.Independent scratch commands := by
  obtain ⟨transcript, s', hrun, hcommands, halone⟩ :=
    h.toShares.run hwork (h.within htotal) hlength
  refine ⟨transcript, s', hrun, hcommands, fun alone hopened => ?_⟩
  obtain ⟨hstreams, hblocks⟩ := halone alone hopened.toShares
  refine ⟨fun name hprogram => hstreams name ?_, hblocks⟩
  rw [hopened.view_eq, h.view_eq, hprogram]

end Session

/-! ## Two streams of the small program -/

/-- Two streams of the small program, one of them in a memory of its own, and a scratch
space. -/
def smallSession (a b : Stream) : Session :=
  { programs := #[smallProgram]
    memories := #[{ allocator := .system }]
    scratches := [("scratch", ⟨.smallest smallProgram, none⟩)]
    streams := [("a", ⟨a, none⟩), ("b", ⟨b, some 0⟩)] }

theorem smallSession_opened {a b : Stream} {m m₁ m' m₁' : Memory}
    (ha : Stream.start smallProgram m = (.ok a, m₁))
    (hb : Stream.start smallProgram m' = (.ok b, m₁')) :
    (smallSession a b).Opened "scratch" := by
  obtain ⟨hprogram, -⟩ := Stream.start_eq_ok ha
  obtain ⟨hprogram', -⟩ := Stream.start_eq_ok hb
  have hstreams : ∀ name o, (smallSession a b).streams.find? name = some o →
      o = ⟨a, none⟩ ∨ o = ⟨b, some 0⟩ := by
    intro name o ho
    unfold smallSession at ho
    simp only [Named.find?_cons] at ho
    split at ho
    · exact Or.inl (Option.some.inj ho).symm
    · split at ho
      · exact Or.inr (Option.some.inj ho).symm
      · cases ho
  have hprograms : ∀ p ∈ (smallSession a b).programs, p = smallProgram := by
    intro p hp
    simpa [smallSession] using hp
  refine ⟨⟨fun p hp => ?_, fun name o ho => ?_, ?_⟩, fun name o ho => ?_⟩
  · rw [hprograms p hp]
    exact ⟨smallProgram_built, smallProgram_ids⟩
  · rcases hstreams name o ho with rfl | rfl
    · exact ⟨by simp [smallSession, hprogram], _, rfl⟩
    · exact ⟨by simp [smallSession, hprogram'], _, rfl⟩
  · refine ⟨⟨.smallest smallProgram, none⟩, rfl, fun p hp => ?_⟩
    rw [hprograms p hp]
    exact Scratch.validate_smallest _
  · rcases hstreams name o ho with rfl | rfl
    · exact ⟨m, m₁, by rw [hprogram]; exact ha⟩
    · exact ⟨m', m₁', by rw [hprogram']; exact hb⟩

/-- A stream is stopped and started again, while another one and a block are scanned in
between. -/
theorem smallSession_independent : ∃ a b m, Stream.start smallProgram { allocator := .system } =
      (.ok a, m) ∧ Stream.start smallProgram { allocator := .system } = (.ok b, m) ∧
    (smallSession a b).Independent "scratch"
      [.scan "a" "scratch" (.ofList [97]) .always,
        .scan "b" "scratch" (.ofList [98, 97]) .always,
        .scanBlock 0 "scratch" (.ofList [98, 98]) (.stopAt (some 1)),
        .scan "a" "scratch" (.ofList [98]) (.stopAt (some 1)),
        .reset "a",
        .close "b" "scratch" .always] := by
  obtain ⟨a, m, hstart⟩ := smallProgram_start
  refine ⟨a, a, m, hstart, hstart, Session.streams_independent
    (smallSession_opened hstart hstart) ?_ ?_ ?_⟩
  · simp [Command.WorksWith]
  · intro name
    by_cases ha : "a" = name
    · subst ha
      decide
    · by_cases hb : "b" = name
      · subst hb
        decide
      · simp [Command.total, Command.forStream, Command.stream?, ha, hb]
  · simp only [Command.length, List.forall_mem_cons]
    decide

end StreamMatch
