import Famfs.Proofs.LogRuns
import Famfs.Sanity.PlayLog
import Famfs.Sanity.SlotBytes

/-! A reader that runs while the master appends applies a prefix of the master's log.
The loop only reaches slots that the master has stored to, and a checksum that rejects
what is not a whole entry lets it apply nothing else. -/

namespace Famfs

open Machine Records Relation

/-- The checksum tells a whole entry from everything else that a load can give, the
zero slot included. -/
def CrcRejects (crc32 : Crc32) (logp : FamfsLog) : Prop :=
  ∀ i < logp.famfsLogNextIndex, ∀ b, Torn (logp.entries i).slot b → b ≠ (logp.entries i).slot →
    slotCrc b ≠ crc32 0 (cut b 0 536)

/-- The state that entries applied one after another lead to. -/
inductive Applied (cfg : PlayConfig) (st0 : PlayState) : List FamfsLogEntryBody → PlayState → Prop
  | nil : Applied cfg st0 [] st0
  | snoc {l : List FamfsLogEntryBody} {st st' : PlayState} {b : FamfsLogEntryBody} (h : Applied cfg st0 l st)
      (sys : Sys) (hplay : playEntry cfg sys st b = .ok st') : Applied cfg st0 (l ++ [b]) st'

structure ReaderOk (cfg : PlayConfig) (st0 : PlayState) (s : SharedLog) : Prop where
  fits : ∀ i < s.logp.famfsLogNextIndex, (s.logp.body i).Fits
  applied : s.reader.applied = (List.range s.reader.i).map s.logp.body
  index : s.reader.i ≤ s.logp.famfsLogNextIndex
  load : s.reader.pc = .load → s.reader.i < s.logp.famfsLogNextIndex
  status : ∀ rc, s.reader.pc = .done rc → s.reader.i < s.reader.bound → rc ≠ 0
  effect : Applied cfg st0 s.reader.applied s.reader.st

section

variable {crc32 : Crc32} {cfg : PlayConfig} {st0 : PlayState} {logp : FamfsLog}

theorem CrcRejects.whole (hcrc : CrcRejects crc32 logp) {i : ℕ} (hi : i < logp.famfsLogNextIndex) {b : List UInt8}
    (htorn : Torn (logp.entries i).slot b) (hgood : validateSlot crc32 b i = 0) : b = (logp.entries i).slot := by
  by_contra hne
  have hbad := hcrc i hi b htorn hne
  have hzero : slotErrors crc32 b i = 0 := by
    unfold validateSlot at hgood
    split_ifs at hgood with h0
    · exact hgood
    · exact not_not.1 h0
  rw [slotErrors, if_pos hbad] at hzero
  omega

theorem readerOk_step {s t : SharedLog} {final : FamfsLog} (hok : ReaderOk cfg st0 s)
    (hstep : ReadStep crc32 cfg s t) (hgrow : LogGrows t.logp final) (hcrc : CrcRejects crc32 final) :
    ReaderOk cfg st0 t := by
  obtain ⟨hfits, happlied, hindex, hload, hstatus, heffect⟩ := hok
  cases hstep with
  | append e hbody =>
    refine ⟨?_, ?_, Nat.le_succ_of_le hindex, fun h => Nat.lt_succ_of_lt (hload h), hstatus, heffect⟩
    · intro i hi
      rcases Nat.lt_succ_iff_lt_or_eq.1 hi with hlt | rfl
      · rw [append_body_old hlt]
        exact hfits i hlt
      · rw [append_body_new]
        exact hbody
    · rw [happlied]
      apply List.map_congr_left
      intro j hj
      have hlt : j < _ := List.mem_range.1 hj
      exact (append_body_old (lt_of_lt_of_le hlt hindex)).symm
  | more hpc n hn hlt =>
    refine ⟨hfits, happlied, hindex, fun _ => lt_of_lt_of_le hlt hn, ?_, heffect⟩
    intro rc hrc
    cases hrc
  | finish hpc n hn hge =>
    refine ⟨hfits, happlied, hindex, ?_, ?_, heffect⟩
    · intro h
      cases h
    · intro rc hrc hlt
      exact absurd hlt hge
  | reject hpc b htorn hbad =>
    refine ⟨hfits, happlied, hindex, ?_, ?_, heffect⟩
    · intro h
      cases h
    · intro rc hrc hlt
      cases hrc
      decide
  | @play logp r hpc b htorn hgood sys st hplay =>
    have hlt : r.i < logp.famfsLogNextIndex := hload hpc
    have hsame : final.entries r.i = logp.entries r.i := hgrow.entries r.i hlt
    have hwhole : b = (logp.entries r.i).slot := by
      rw [← hsame] at htorn ⊢
      exact hcrc.whole (lt_of_lt_of_le hlt hgrow.index) htorn hgood
    have hbody : slotBody b = logp.body r.i := by
      rw [hwhole]
      exact slotBody_slot (hfits r.i hlt)
    refine ⟨hfits, ?_, hlt, ?_, ?_, heffect.snoc sys hplay⟩
    · have hprev : r.applied = (List.range r.i).map logp.body := happlied
      change r.applied ++ [slotBody b] = (List.range (r.i + 1)).map logp.body
      rw [hprev, hbody, List.range_succ, List.map_append]
      rfl
    · intro h
      cases h
    · intro rc hrc
      cases hrc

theorem readStep_grows {s t : SharedLog} (hstep : ReadStep crc32 cfg s t) : LogGrows s.logp t.logp := by
  cases hstep with
  | append e hfits => exact logGrows_append crc32 _ e
  | more hpc n hn hlt => exact LogGrows.refl _
  | finish hpc n hn hge => exact LogGrows.refl _
  | reject hpc b htorn hbad => exact LogGrows.refl _
  | play hpc b htorn hgood sys st hplay => exact LogGrows.refl _

theorem readerOk_start (hfits : ∀ i < logp.famfsLogNextIndex, (logp.body i).Fits) :
    ReaderOk cfg st0 ⟨logp, .start st0⟩ := by
  refine ⟨hfits, rfl, Nat.zero_le _, ?_, ?_, .nil⟩
  · intro h
    cases h
  · intro rc hrc
    cases hrc

/-- Whatever the master appends meanwhile and in whatever order its stores become
visible, the reader applies the first entries of the log in order, and it returns an
error when it stops below the bound it read. -/
theorem reader_applies_prefix (hfits : ∀ i < logp.famfsLogNextIndex, (logp.body i).Fits) {s : SharedLog}
    (hrun : ReflTransGen (ReadStep crc32 cfg) ⟨logp, .start st0⟩ s) (hcrc : CrcRejects crc32 s.logp) :
    (∃ k ≤ s.logp.famfsLogNextIndex, s.reader.applied = (List.range k).map s.logp.body) ∧
      Applied cfg st0 s.reader.applied s.reader.st ∧
      ∀ rc, s.reader.pc = .done rc → s.reader.i < s.reader.bound → rc ≠ 0 := by
  have hok : ∀ final, LogGrows s.logp final → CrcRejects crc32 final → ReaderOk cfg st0 s := by
    refine Runs.invariant (P := fun s => ∀ final, LogGrows s.logp final → CrcRejects crc32 final →
      ReaderOk cfg st0 s) ?_ hrun fun _ _ _ => readerOk_start hfits
    intro s t ih hstep final hgrow hcrc
    exact readerOk_step (ih final ((readStep_grows hstep).trans hgrow) hcrc) hstep hgrow hcrc
  have hs := hok s.logp (LogGrows.refl _) hcrc
  exact ⟨⟨s.reader.i, hs.index, hs.applied⟩, hs.effect, hs.status⟩

theorem torn_refl (b : List UInt8) : Torn b b := List.forall₂_same.2 fun _ _ => Or.inr rfl

end

def mixtures : List UInt8 → List (List UInt8)
  | [] => [[]]
  | x :: xs => if x = 0 then (mixtures xs).map (0 :: ·) else (mixtures xs).flatMap fun l => [0 :: l, x :: l]

theorem torn_mem_mixtures {s b : List UInt8} (h : Torn s b) : b ∈ mixtures s := by
  induction h with
  | nil => exact List.mem_singleton.2 rfl
  | @cons x y xs ys hxy _ ih =>
    rw [mixtures]
    split_ifs with h0
    · have hy : y = 0 := hxy.elim id fun h => h.trans h0
      exact List.mem_map.2 ⟨ys, ih, by rw [hy]⟩
    · apply List.mem_flatMap.2
      exact ⟨ys, ih, by rcases hxy with rfl | rfl <;> simp⟩

def smallLog : FamfsLog :=
  famfsAppendLog Crc32.update (mkfsLog Crc32.update FAMFS_LOG_LEN) (newLogEntry (.md ⟨0, 0, 0, [100]⟩))

theorem smallLog_entry : smallLog.entries 0 = ⟨0, .md ⟨0, 0, 0, [100]⟩, 3081142209⟩ := by
  have hcrc : Crc32.update 0 (FamfsLogEntry.image ⟨0, .md ⟨0, 0, 0, [100]⟩, 0⟩) = 3081142209 := by
    rw [Crc32.update_eq_feed]
    decide +kernel
  rw [← hcrc]
  exact append_entries_new Crc32.update (mkfsLog Crc32.update FAMFS_LOG_LEN) _

theorem smallLog_rejects : CrcRejects Crc32.update smallLog := by
  intro i hi b htorn hne
  obtain rfl : i = 0 := Nat.lt_one_iff.1 hi
  rw [smallLog_entry, FamfsLogEntry.slot] at htorn hne
  set image := FamfsLogEntry.image ⟨0, .md ⟨0, 0, 0, [100]⟩, 3081142209⟩ with himage
  have hlen : image.length = 536 := by decide +kernel
  have hsplit : b = cut b 0 536 ++ cut b 536 8 := by
    have hb : b.length = 544 := by
      rw [← htorn.length_eq, List.length_append, hlen, leBytes_length]
    have hrest : cut b 536 8 = b.drop 536 := List.take_of_length_le (by rw [List.length_drop, hb])
    rw [hrest, cut, List.drop_zero, List.take_append_drop]
  have h1 : cut b 0 536 ∈ mixtures image := by
    have := List.forall₂_take 536 htorn
    rw [← hlen, List.take_left] at this
    exact torn_mem_mixtures (hlen ▸ this)
  have h2 : cut b 536 8 ∈ mixtures (leBytes 8 3081142209) := by
    have := List.forall₂_take 8 (List.forall₂_drop 536 htorn)
    rw [← hlen, List.drop_left, hlen] at this
    exact torn_mem_mixtures this
  rw [slotCrc, Crc32.update_eq_feed]
  have hother : ∀ c ∈ mixtures image, c = image ∨ ∀ d ∈ mixtures (leBytes 8 3081142209),
      leNat d ≠ Crc32.feed c (0 ^^^ 0xffffffff) ^^^ 0xffffffff := by decide +kernel
  have hsame : ∀ d ∈ mixtures (leBytes 8 3081142209), d = leBytes 8 3081142209 ∨
      leNat d ≠ Crc32.feed image (0 ^^^ 0xffffffff) ^^^ 0xffffffff := by decide +kernel
  rcases hother _ h1 with heq | hbad
  · rw [heq]
    apply (hsame _ h2).resolve_left
    intro hcrc
    rw [heq, hcrc] at hsplit
    exact hne hsplit
  · exact hbad _ h2

def dryClient : PlayConfig := ⟨43, ⟨0, 0, 0o022⟩, .client, false, true, [47, 109]⟩

theorem smallLog_run (st : PlayState) :
    ∃ s, ReflTransGen (ReadStep Crc32.update dryClient) ⟨mkfsLog Crc32.update FAMFS_LOG_LEN, .start st⟩ s ∧
      s.logp = smallLog ∧ s.reader.applied.length = 1 ∧ s.reader.pc = .done (playErrors st.ls) := by
  have hfits : FamfsLogEntryBody.Fits (.md ⟨0, 0, 0, [100]⟩) :=
    .md (by decide) (by decide) (by decide) (by decide) (by decide)
  have hvalid : famfsValidateLogEntry Crc32.update (fun _ => smallLog.entries 0) 0 = 0 :=
    stampLogEntry_valid Crc32.update (mkfsLog Crc32.update FAMFS_LOG_LEN) _
  have hgood : validateSlot Crc32.update (smallLog.entries 0).slot 0 = 0 := by
    rw [validateSlot_slot (by rw [smallLog_entry]; decide) (by rw [smallLog_entry]; decide)]
    exact hvalid
  have hbody : slotBody (smallLog.entries 0).slot = .md ⟨0, 0, 0, [100]⟩ := by
    rw [smallLog_entry]
    exact slotBody_slot hfits
  let st' : PlayState :=
    { st with ls := { st.ls with nEntries := st.ls.nEntries + 1, dLogged := st.ls.dLogged + 1 } }
  have hplay : playEntry dryClient Sys.healthy st (.md ⟨0, 0, 0, [100]⟩) = .ok st' := rfl
  let body := slotBody (smallLog.entries 0).slot
  have h1 : ReadStep Crc32.update dryClient ⟨mkfsLog Crc32.update FAMFS_LOG_LEN, .start st⟩ ⟨smallLog, .start st⟩ :=
    .append _ hfits
  have h2 : ReadStep Crc32.update dryClient ⟨smallLog, .start st⟩ ⟨smallLog, ⟨.load, 0, 1, st, []⟩⟩ :=
    .more rfl 1 le_rfl Nat.zero_lt_one
  have h3 : ReadStep Crc32.update dryClient ⟨smallLog, ⟨.load, 0, 1, st, []⟩⟩ ⟨smallLog, ⟨.test, 1, 1, st', [body]⟩⟩ :=
    .play (r := ⟨.load, 0, 1, st, []⟩) rfl (smallLog.entries 0).slot (torn_refl _) hgood Sys.healthy st'
      (by rw [hbody]; exact hplay)
  have h4 : ReadStep Crc32.update dryClient ⟨smallLog, ⟨.test, 1, 1, st', [body]⟩⟩
      ⟨smallLog, ⟨.done (playErrors st'.ls), 1, 1, st', [body]⟩⟩ :=
    .finish (r := ⟨.test, 1, 1, st', [body]⟩) rfl 1 le_rfl (lt_irrefl 1)
  exact ⟨_, (((ReflTransGen.single h1).tail h2).tail h3).tail h4, rfl, rfl, rfl⟩

/-- The reader of this run has applied the directory and nothing else. -/
theorem reader_applies_prefix_one_dir :
    ∃ s, ReflTransGen (ReadStep Crc32.update dryClient)
        ⟨mkfsLog Crc32.update FAMFS_LOG_LEN, .start ⟨⟨fun _ => none, [], .v1 []⟩, .zero⟩⟩ s ∧
      s.reader.pc = .done 0 ∧ s.reader.applied = [.md ⟨0, 0, 0, [100]⟩] := by
  obtain ⟨s, hrun, hlog, hlen, hpc⟩ := smallLog_run ⟨⟨fun _ => none, [], .v1 []⟩, .zero⟩
  obtain ⟨⟨k, -, hk⟩, -, -⟩ := reader_applies_prefix (fun i hi => absurd hi (Nat.not_lt_zero i)) hrun
    (hlog ▸ smallLog_rejects)
  refine ⟨s, hrun, hpc, ?_⟩
  rw [hk, List.length_map, List.length_range] at hlen
  rw [hk, hlen, hlog]
  change [smallLog.body 0] = _
  rw [FamfsLog.body, smallLog_entry]

end Famfs
