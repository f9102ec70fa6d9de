-- The memory of a session. What each memory has handed out are the states of the
-- streams and the parts of the scratch spaces that live in it, after each command,
-- whether the command succeeds or not.
import StreamMatch.Proofs.Session.Accounts
import StreamMatch.Proofs.Stream.Calls

namespace StreamMatch

namespace Session

variable {s s' : Session} {m m' : Memory} {i : Option Nat} {name : String}

/-- What each memory has handed out are the blocks of the session. -/
structure Balanced (s : Session) : Prop extends Tidy s where
  accounts : s.Accounts nowhere

namespace Balanced

variable {o : Owned Stream} {k : Owned Scratch}

theorem setMemory (h : s.Balanced) (hm : s.memory i = some m)
    (hchange : ∀ blocks, m.Holds blocks → m'.Holds blocks) : (s.setMemory m' i).Balanced := by
  refine ⟨h.toTidy.setMemory m' i, ?_⟩
  rw [← onlyIn_nil i]
  exact h.accounts.handOut hm fun blocks hb => hchange blocks hb

/-- A stream goes on with the same block. -/
theorem setStream (h : s.Balanced) (ho : s.streams.find? name = some o) {t : Stream}
    (hsame : o.value.Same t) : (s.setStream name o t).Balanced := by
  have hmem := Named.mem_of_find? ho
  have hsize : t.state.size = t.program.streamSize := by
    rw [hsame.state.size_eq, hsame.program_eq]
    exact h.sizes (name, o) hmem
  refine ⟨h.toTidy.insertStream name (h.streams_known (name, o) hmem) hsize, ?_⟩
  have hout := h.accounts.eraseStream h.toTidy name
  rw [ho, heldBy, Owned.held, ← hsame.used_eq] at hout
  have hin := Accounts.insertStream (o := ⟨t, o.memory⟩) hout (h.toTidy.eraseStream name) name
  simp only [Named.insert_erase, Named.find?_erase_self] at hin
  exact hin

/-- A scratch space goes on with other blocks of its memory. -/
theorem changeScratch (h : s.Balanced) (hk : s.scratches.find? name = some k)
    (hm : s.memory k.memory = some m) {left : Scratch}
    (hchange : ∀ blocks, m.Holds (k.value.used ++ blocks) → m'.Holds (left.used ++ blocks)) :
    ((s.setMemory m' k.memory).setScratch name k left).Balanced := by
  have hmemory := h.scratches_known (name, k) (Named.mem_of_find? hk)
  rw [← isSome_memory_setMemory s m' k.memory] at hmemory
  refine ⟨(h.toTidy.setMemory m' k.memory).insertScratch name hmemory, ?_⟩
  have hout := h.accounts.eraseScratch h.toTidy name
  rw [hk, heldBy, Owned.held] at hout
  have hset := Accounts.setMemory hout hm hchange
  have hin := Accounts.insertScratch (k := ⟨left, k.memory⟩) hset
    ((h.toTidy.eraseScratch name).setMemory m' k.memory) name
  simp only [Named.insert_erase, Named.find?_erase_self, setMemory_withScratches] at hin
  rw [Session.setScratch, setMemory_scratches]
  exact hin

/-- A scratch space goes on with the same blocks. -/
theorem setScratch (h : s.Balanced) (hk : s.scratches.find? name = some k) {left : Scratch}
    (hsame : k.value.Same left) : (s.setScratch name k left).Balanced := by
  have hmemory := h.scratches_known (name, k) (Named.mem_of_find? hk)
  refine ⟨h.toTidy.insertScratch name hmemory, ?_⟩
  have hout := h.accounts.eraseScratch h.toTidy name
  rw [hk, heldBy, Owned.held, ← hsame.used_eq] at hout
  have hin := Accounts.insertScratch (k := ⟨left, k.memory⟩) hout (h.toTidy.eraseScratch name) name
  simp only [Named.insert_erase, Named.find?_erase_self] at hin
  exact hin

theorem dropStream (h : s.Balanced) (name : String) :
    (letGo { s with streams := s.streams.erase name } Stream.release
      (s.streams.find? name)).Balanced :=
  ⟨(h.toTidy.eraseStream name).letGo Stream.release _,
    (h.accounts.eraseStream h.toTidy name).letGo fun _ _ _ => Stream.release_holds⟩

theorem dropScratch (h : s.Balanced) (name : String) :
    (letGo { s with scratches := s.scratches.erase name } Scratch.release
      (s.scratches.find? name)).Balanced :=
  ⟨(h.toTidy.eraseScratch name).letGo Scratch.release _,
    (h.accounts.eraseScratch h.toTidy name).letGo fun _ _ _ => Scratch.release_holds⟩

/-- A new stream takes the place of the one with its name. -/
theorem putStream (h : s.Balanced) (hm : s.memory i = some m) {t : Stream}
    (hsize : t.state.size = t.program.streamSize)
    (hchange : ∀ blocks, m.Holds blocks → m'.Holds (t.used ++ blocks)) :
    ((s.setMemory m' i).putStream name ⟨t, i⟩).Balanced := by
  have htidy := h.toTidy.setMemory m' i
  have hmemory : ((s.setMemory m' i).memory i).isSome := by
    rw [isSome_memory_setMemory, hm, Option.isSome_some]
  have hnew : (s.setMemory m' i).Accounts (Owned.held Stream.used ⟨t, i⟩) :=
    h.accounts.handOut hm hchange
  exact ⟨(htidy.insertStream (o := ⟨t, i⟩) name hmemory hsize).letGo Stream.release _,
    (hnew.insertStream htidy name).letGo fun _ _ _ => Stream.release_holds⟩

/-- A new scratch space takes the place of the one with its name. -/
theorem putScratch (h : s.Balanced) (hm : s.memory i = some m) {left : Scratch}
    (hchange : ∀ blocks, m.Holds blocks → m'.Holds (left.used ++ blocks)) :
    ((s.setMemory m' i).putScratch name ⟨left, i⟩).Balanced := by
  have htidy := h.toTidy.setMemory m' i
  have hmemory : ((s.setMemory m' i).memory i).isSome := by
    rw [isSome_memory_setMemory, hm, Option.isSome_some]
  have hnew : (s.setMemory m' i).Accounts (Owned.held Scratch.used ⟨left, i⟩) :=
    h.accounts.handOut hm hchange
  exact ⟨(htidy.insertScratch (k := ⟨left, i⟩) name hmemory).letGo Scratch.release _,
    (hnew.insertScratch htidy name).letGo fun _ _ _ => Scratch.release_holds⟩

/-! ## Commands -/

theorem allocateScratch (h : s.Balanced) (name : String) (program : Nat) (i : Option Nat) :
    Performs (fun r => r.1.Balanced) (s.perform (.allocateScratch name program i)) := by
  refine .bind (.known _) fun p _ => .bind (.known _) fun m hm => ?_
  have hspec := fun blocks (hb : m.Holds blocks) => Scratch.allocate_holds hb p
  rcases heq : Scratch.allocate m p with ⟨e | left, m'⟩
  · rw [heq] at hspec
    exact .of_pure (h.setMemory hm hspec)
  · rw [heq] at hspec
    exact .of_pure (h.putScratch hm hspec)

theorem growScratch (h : s.Balanced) (name : String) (program : Nat) :
    Performs (fun r => r.1.Balanced) (s.perform (.growScratch name program)) := by
  refine .bind (.known _) fun p _ => .bind (.known _) fun k hk => .bind (.known _) fun m hm => ?_
  exact .of_pure (h.changeScratch hk hm fun blocks hb => Scratch.growFor_holds hb p)

theorem scanBlock (h : s.Balanced) (program : Nat) (scratch : String) (data : Bytes)
    (policy : Policy) :
    Performs (fun r => r.1.Balanced) (s.perform (.scanBlock program scratch data policy)) := by
  refine .bind (.known _) fun p _ => .bind (.known _) fun k hk => ?_
  refine .bind (.lift (p.scanBlock_same k.value data policy)) fun r hsame => ?_
  exact .of_pure (h.setScratch hk hsame)

theorem start (h : s.Balanced) (stream : String) (program : Nat) (i : Option Nat) :
    Performs (fun r => r.1.Balanced) (s.perform (.start stream program i)) := by
  refine .bind (.known _) fun p _ => .bind (.known _) fun m hm => ?_
  have hspec := fun blocks (hb : m.Holds blocks) => Stream.start_holds hb p
  rcases heq : Stream.start p m with ⟨e | t, m'⟩
  · rw [heq] at hspec
    exact .of_pure (h.setMemory hm hspec)
  · rw [heq] at hspec
    exact .of_pure (h.putStream hm (Stream.size_of_start heq) hspec)

theorem clone (h : s.Balanced) (stream source : String) :
    Performs (fun r => r.1.Balanced) (s.perform (.clone stream source)) := by
  refine .bind (.known _) fun o ho => .bind (.known _) fun m hm => ?_
  have hspec := fun blocks (hb : m.Holds blocks) => Stream.clone_holds hb o.value
  rcases heq : o.value.clone m with ⟨e | t, m'⟩
  · rw [heq] at hspec
    exact .of_pure (h.setMemory hm hspec)
  · rw [heq] at hspec
    obtain ⟨hprogram, hsize⟩ := Stream.of_clone heq
    have hneeded : t.state.size = t.program.streamSize := by
      rw [hprogram, hsize]
      exact h.sizes (source, o) (Named.mem_of_find? ho)
    exact .of_pure (h.putStream hm hneeded hspec)

theorem takeBoth (s : Session) (stream scratch : String) :
    Performs (fun r => ∃ o k, s.streams.find? stream = some o ∧
      s.scratches.find? scratch = some k ∧ r = (s.without stream scratch, o, k))
      (s.takeBoth stream scratch) := by
  refine .bind (.known _) fun o ho => .bind (.known _) fun k hk => ?_
  exact .of_pure ⟨o, k, ho, hk, rfl⟩

theorem scan (h : s.Balanced) (stream scratch : String) (data : Bytes) (policy : Policy) :
    Performs (fun r => r.1.Balanced) (s.perform (.scan stream scratch data policy)) := by
  refine .bind (takeBoth s stream scratch) ?_
  rintro r ⟨o, k, ho, hk, rfl⟩
  refine .bind (.lift (o.value.scanWith_same k.value data false policy)) ?_
  rintro ⟨report, t, left⟩ ⟨hstream, hscratch⟩
  have hafter := (h.setStream ho hstream).setScratch hk hscratch
  refine .of_pure ?_
  simpa only [Session.setStream, Session.setScratch, Session.without, Named.insert_erase]
    using hafter

/-- Taking a scratch space away and putting it back changes nothing else. -/
theorem setScratch_without (s : Session) (stream scratch : String) (m : Memory) (i : Option Nat)
    (k : Owned Scratch) (left : Scratch) :
    ((s.without stream scratch).setMemory m i).setScratch scratch k left =
      (Session.setMemory { s with streams := s.streams.erase stream } m i).setScratch scratch k
        left := by
  cases i <;> simp only [Session.without, Session.setMemory, Session.setScratch, Named.insert_erase]

theorem close (h : s.Balanced) (stream scratch : String) (policy : Policy) :
    Performs (fun r => r.1.Balanced) (s.perform (.close stream scratch policy)) := by
  refine .bind (takeBoth s stream scratch) ?_
  rintro r ⟨o, k, ho, hk, rfl⟩
  refine .bind (.known _) fun m hm => ?_
  refine .bind (.lift (o.value.close_same k.value policy m)) ?_
  rintro ⟨report, left, m'⟩ ⟨hscratch, rfl⟩
  have hm' : Session.memory { s with streams := s.streams.erase stream } o.memory = some m := hm
  have hdropped := h.dropStream stream
  rw [ho, letGo_of_memory hm'] at hdropped
  have hafter := hdropped.setScratch (by rw [setMemory_scratches]; exact hk) hscratch
  rw [← setScratch_without] at hafter
  exact .of_pure hafter

theorem save (h : s.Balanced) (slot : String) (o : Owned Stream) :
    Balanced { s with saved := s.saved.insert slot o.value.state.bytes } :=
  ⟨⟨h.nodup_streams, h.nodup_scratches, h.streams_known, h.scratches_known, h.sizes⟩, h.accounts⟩

theorem copy (h : s.Balanced) (stream source : String) :
    Performs (fun r => r.1.Balanced) (s.perform (.copy stream source)) := by
  refine .bind (.known _) fun o ho => .bind (.known _) fun other _ => ?_
  rcases heq : o.value.copyFrom other.value with e | t
  · exact .of_pure h
  · exact .of_pure (h.setStream ho (Stream.copyFrom_same heq))

theorem restoreFrom (h : s.Balanced) (stream : String) (bytes : Bytes) (a : Alteration) :
    Performs (fun r => r.1.Balanced) (s.restoreFrom stream bytes a) := by
  refine .bind (.known _) fun o ho => .bind (.lift fun _ h => h) fun bytes _ => ?_
  have hafter := h.setStream ho (o.value.restore_same bytes)
  rcases heq : o.value.restore bytes with ⟨e | _, t⟩
  · rw [heq] at hafter
    exact .of_pure hafter
  · rw [heq] at hafter
    exact .of_pure hafter

end Balanced

/-- Each command keeps what the memories have handed out and the blocks of the session
the same, whether it succeeds or not. -/
theorem Balanced.perform (h : s.Balanced) (c : Command) :
    Performs (fun r => r.1.Balanced) (s.perform c) := by
  cases c with
  | allocateScratch name program i => exact h.allocateScratch name program i
  | growScratch name program => exact h.growScratch name program
  | dropScratch name => exact .of_pure (h.dropScratch name)
  | scanBlock program scratch data policy => exact h.scanBlock program scratch data policy
  | start stream program i => exact h.start stream program i
  | scan stream scratch data policy => exact h.scan stream scratch data policy
  | close stream scratch policy => exact h.close stream scratch policy
  | reset stream =>
    exact .bind (.known _) fun o ho => .of_pure (h.setStream ho o.value.reset_same)
  | copy stream source => exact h.copy stream source
  | clone stream source => exact h.clone stream source
  | save stream slot =>
    exact .bind (.known _) fun o _ => .of_pure (h.save slot o)
  | restoreSaved stream slot a =>
    exact .bind (.known _) fun bytes _ => h.restoreFrom stream bytes a
  | restore stream bytes a => exact h.restoreFrom stream bytes a
  | drop stream => exact .of_pure (h.dropStream stream)

theorem Balanced.step (h : s.Balanced) (c : Command) :
    Checked.Ensures (fun r => r.1.Balanced) (s.step c) :=
  step_ensures h (h.perform c)

/-- What each memory has handed out are the blocks of the session after any commands. -/
theorem Balanced.run (h : s.Balanced) (commands : List Command) :
    Checked.Ensures (fun r => r.2.Balanced) (s.run commands) := by
  induction commands generalizing s with
  | nil => exact .of_ok h
  | cons c rest ih =>
    refine (h.step c).bind ?_
    rintro ⟨s', reply⟩ h'
    refine (ih h').bind ?_
    rintro ⟨replies, s''⟩ h''
    exact .of_ok h''

/-! ## Whole sessions -/

/-- A session in which nothing was done. Its memories can have any allocators. -/
structure Fresh (s : Session) : Prop where
  streams : s.streams = []
  scratches : s.scratches = []
  events : ∀ i m, s.memory i = some m → m.events = #[]

theorem held_eq_nil (hstreams : s.streams = []) (hscratches : s.scratches = []) (i : Option Nat) :
    s.held i = [] := by
  rw [held, hstreams, hscratches]
  rfl

theorem Fresh.balanced (h : s.Fresh) : s.Balanced := by
  refine ⟨⟨?_, ?_, ?_, ?_, ?_⟩, fun i m hm => ?_⟩
  · simp [h.streams]
  · simp [h.scratches]
  · simp [h.streams]
  · simp [h.scratches]
  · simp [h.streams]
  · rw [held_eq_nil h.streams h.scratches]
    exact .of_events_eq_empty (h.events i m hm)

/-- After any commands, whether they succeed or not, the blocks that a memory has handed
out are one block for each stream, of the size that its program needs, and the parts of
the scratch spaces that are not empty. No block is given back twice, and none is left when
nothing else is. Growing a scratch space never makes a part smaller, so what fits in it
goes on to fit, also when growing fails. -/
theorem blocks_accounted (h : s.Fresh) {commands : List Command}
    {transcript : List (Command × Reply)} (hrun : s.run commands = .ok (transcript, s')) :
    ((∀ v ∈ s'.streams, (s'.memory v.2.memory).isSome ∧
          v.2.value.state.size = v.2.value.program.streamSize) ∧
        (∀ v ∈ s'.scratches, (s'.memory v.2.memory).isSome) ∧
        ∀ i m, s'.memory i = some m →
          (∃ blocks, m.outstanding = some blocks ∧ blocks.Perm (s'.held i)) ∧ m.freed.Nodup ∧
            (s'.streams = [] → s'.scratches = [] → m.outstanding = some [])) ∧
      ∀ (k : Scratch) (m : Memory) (p : Program), match k.growFor m p with
        | (result, k', _) => (∀ part, (k.part part).size ≤ (k'.part part).size) ∧
          (∀ q, k.validate q = .ok () → k'.validate q = .ok ()) ∧
          (result = .ok () → k'.validate p = .ok ()) := by
  have hbalanced : s'.Balanced := h.balanced.run commands _ hrun
  refine ⟨⟨fun v hv => ⟨hbalanced.streams_known v hv, hbalanced.sizes v hv⟩,
    hbalanced.scratches_known, fun i m hm => ?_⟩, fun k m p => ?_⟩
  · have hholds := hbalanced.accounts i m hm
    obtain ⟨blocks, hout, hperm⟩ := hholds.outstanding
    refine ⟨⟨blocks, hout, hperm⟩, (List.nodup_append.mp hholds.nodup).1, fun hst hsc => ?_⟩
    have hnone : blocks.Perm [] := by
      rw [← held_eq_nil hst hsc i]
      exact hperm
    rw [hout, hnone.eq_nil]
  · obtain ⟨hcovers, hfits⟩ := k.growFor_covers m p
    exact ⟨hcovers.part_le, fun q => hcovers.validate, hfits⟩

end Session

deriving instance DecidableEq for Reply

/-- A session with two programs. Its memory has no space for two large blocks, and can not
reserve space for candidates at first. -/
def limitedSession : Session :=
  { programs := #[smallProgram, Scan.betweenProgram]
    memories := #[{ allocator := .metered (some 97) 0, reserves := fun n _ => decide (n ≠ 0) }] }

def limitedCommands : List Command :=
  [.allocateScratch "s" 0 (some 0), .start "a" 1 (some 0), .allocateScratch "s" 0 (some 0),
    .drop "a", .allocateScratch "s" 0 (some 0), .growScratch "s" 1]

theorem limitedSession_fresh : limitedSession.Fresh := by
  refine ⟨rfl, rfl, fun i m hm => ?_⟩
  rcases i with _ | _ | i
  · cases hm
    rfl
  · cases hm
    rfl
  · cases hm

/-- The first scratch space has all its parts when there is no space for candidates, and the
second one has two of them when a stream has the rest of the memory. The third one is made,
and a part that is replaced when it grows is refused. -/
theorem limitedSession_accounted : ∃ transcript s',
    limitedSession.run limitedCommands = .ok (transcript, s') ∧
    transcript.map Prod.snd = [.failed (.allocation 32), .done, .failed (.allocation 90),
      .dropped true, .allocated 127, .grown (.error (.allocation 3)) 127] ∧
    ∀ i m, s'.memory i = some m →
      (∃ blocks, m.outstanding = some blocks ∧ blocks.Perm (s'.held i)) ∧ m.freed.Nodup ∧
        (s'.streams = [] → s'.scratches = [] → m.outstanding = some []) := by
  have hreplies : (limitedSession.run limitedCommands).map (fun r => r.1.map Prod.snd) =
      .ok [.failed (.allocation 32), .done, .failed (.allocation 90), .dropped true,
        .allocated 127, .grown (.error (.allocation 3)) 127] := by decide +kernel
  rcases hrun : limitedSession.run limitedCommands with e | ⟨transcript, s'⟩
  · rw [hrun] at hreplies
    cases hreplies
  · rw [hrun] at hreplies
    exact ⟨transcript, s', rfl, Except.ok.inj hreplies,
      (Session.blocks_accounted limitedSession_fresh hrun).1.2.2⟩

end StreamMatch
