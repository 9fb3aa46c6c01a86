import Famfs.Sanity.IcacheRequests

/-! One complete request on a cache that keeps its invariant, with the kernel's counts.
`extra` counts the references that no one will drop. -/

namespace Famfs.Fused

open Runs

/-- References owed to the kernel, to the root's two, and to no one. -/
def FuseState.weight (s : FuseState) (extra : ℕ → ℕ) (a : ℕ) : ℕ :=
  (if a = FUSE_ROOT_ID then 2 else 0) + s.lookups a + s.opens a + extra a

abbrev FuseOk (s : FuseState) (L : List ℕ) (extra : ℕ → ℕ) : Prop := IcacheOk s.icache L [] (s.weight extra)

def Request.nodeid : Request → ℕ
  | .lookup parent _ => parent
  | .forget nodeid _ | .getattr nodeid | .setattr nodeid _ | .openFile nodeid | .release nodeid | .flock nodeid _ => nodeid

/-- The references that a request takes and nothing drops. -/
def Request.surplus (extra : ℕ → ℕ) : Request → ℕ → ℕ
  | .openFile nodeid | .flock nodeid _ => Function.update extra nodeid (extra nodeid + 1)
  | .lookup _ _ | .forget _ _ | .getattr _ | .setattr _ _ | .release _ => extra

def Request.isFlock : Request → Bool
  | .flock _ _ => true
  | _ => false

def Request.isSetattr : Request → Bool
  | .setattr _ _ => true
  | _ => false

variable {s t : FuseState} {L : List ℕ} {extra : ℕ → ℕ} {req : Request}

theorem FuseOk.named (h : FuseOk s L extra) {a : ℕ} (ha : s.Named a) : a ∈ FUSE_ROOT_ID :: L := by
  simpa using (h.linked.alloc a).1 ha

theorem FuseState.Allowed.named (h : s.Allowed req) : s.Named req.nodeid := by
  cases req with
  | lookup parent sys => exact h.1
  | forget nodeid nlookup => exact h.1
  | release nodeid => exact h.1
  | getattr nodeid => exact h
  | setattr nodeid size => exact h
  | openFile nodeid => exact h
  | flock nodeid op => exact h

theorem FuseOk.fuel (h : FuseOk s L extra) : L.length < s.fuel := by
  rw [FuseState.fuel, h.linked.count]
  omega

theorem serve_eq {granted : Option ℕ} {c : FamfsIcache} (hrun : handle s.fuel s.icache req = .ok (granted, c)) :
    s.serve req = some (s.account granted c req) := by
  simp [FuseState.serve, hrun]

theorem FuseOk.serve_alive (h : FuseOk s L extra) (hallowed : s.Allowed req)
    (halive : 1 ≤ (s.icache.node req.nodeid).refcount) :
    (req.isFlock = true ∧ handle s.fuel s.icache req = .error .blocked) ∨
      ∃ t L', s.serve req = some t ∧ FuseOk t L' (req.surplus extra) ∧
        (req.isSetattr = false → (∀ b ∈ L, (s.icache.node b).pinned = false) → ∀ b ∈ L', (t.icache.node b).pinned = false) := by
  have hnamed := h.named hallowed.named
  have hfuel := h.fuel
  have hsum : ∀ a, s.weight extra a = (if a = FUSE_ROOT_ID then 2 else 0) + s.lookups a + s.opens a + extra a := fun _ => rfl
  cases req with
  | lookup parent sys =>
    obtain ⟨out, hrun, L', weight', hok, hweight, hpin⟩ :
        ∃ out, famfsDoLookup s.fuel s.icache parent sys = .ok out ∧ Granted s.icache L (s.weight extra) out :=
      lookup_ok h hnamed halive hallowed.2 hfuel
    have hserve : s.serve (.lookup parent sys) = some (s.account out.ino out.icache (.lookup parent sys)) :=
      serve_eq (by rw [handle, hrun, ok_bind])
    obtain ⟨rc, granted, c'⟩ := out
    cases granted with
    | none => exact .inr ⟨_, L', hserve, hok.reweigh hweight, fun _ => hpin⟩
    | some a =>
      refine .inr ⟨_, L', hserve, hok.reweigh fun b => ?_, fun _ => hpin⟩
      rw [hweight, hsum]
      simp only [FuseState.account, Request.surplus, FuseState.weight, Function.update_apply, Option.some.injEq, eq_comm (a := a)]
      split_ifs <;> subst_vars <;> omega
  | forget nodeid nlookup =>
    have hn : nlookup ≤ s.lookups nodeid := hallowed.2
    obtain ⟨c', L', hrun, hok, hpin⟩ := forget_ok (a := nodeid) (n := nlookup) h hnamed halive (by rw [hsum]; omega) hfuel
    refine .inr ⟨_, L', serve_eq (by rw [handle, hrun, ok_bind]), hok.reweigh fun b => ?_, fun _ => hpin⟩
    simp only [FuseState.account, Request.surplus, FuseState.weight, Function.update_apply]
    split_ifs <;> subst_vars <;> omega
  | getattr nodeid =>
    have hrun : famfsGetattr s.fuel s.icache nodeid = .ok s.icache := getattr_eq h hnamed halive
    exact .inr ⟨_, L, serve_eq (by rw [handle, hrun, ok_bind]), h, fun _ hall => hall⟩
  | setattr nodeid size =>
    obtain ⟨c', hrun, hok⟩ : ∃ c', famfsSetattr s.fuel s.icache nodeid size = .ok c' ∧ _ := setattr_ok h hnamed halive size
    exact .inr ⟨_, L, serve_eq (by rw [handle, hrun, ok_bind]), hok, nofun⟩
  | openFile nodeid =>
    obtain ⟨c', hrun, hok, hpin⟩ := open_ok (a := nodeid) h hnamed halive
    refine .inr ⟨_, L, serve_eq (by rw [handle, hrun, ok_bind]), hok.reweigh fun b => ?_, fun _ hall b hb => (hpin b).trans (hall b hb)⟩
    simp only [FuseState.account, Request.surplus, FuseState.weight, Function.update_apply]
    split_ifs <;> subst_vars <;> omega
  | release nodeid =>
    have hone : 1 ≤ s.opens nodeid := hallowed.2
    obtain ⟨c', L', hrun, hok, hpin⟩ := release_ok (a := nodeid) h hnamed halive (by rw [hsum]; omega) hfuel
    refine .inr ⟨_, L', serve_eq (by rw [handle, hrun, ok_bind]), hok.reweigh fun b => ?_, fun _ => hpin⟩
    simp only [FuseState.account, Request.surplus, FuseState.weight, Function.update_apply]
    split_ifs <;> subst_vars <;> omega
  | flock nodeid op =>
    rcases flock_ok (a := nodeid) h hnamed halive op with hrun | ⟨c', hrun, hok, hpin⟩
    · exact .inl ⟨rfl, by rw [handle, hrun, error_bind]⟩
    · refine .inr ⟨_, L, serve_eq (by rw [handle, hrun, ok_bind]), hok.reweigh fun b => ?_,
        fun _ hall b hb => (hpin b).trans (hall b hb)⟩
      simp only [FuseState.account, Request.surplus, FuseState.weight, Function.update_apply]
      split_ifs <;> subst_vars <;> omega

theorem FuseOk.serve_dead (h : FuseOk s L extra) (hallowed : s.Allowed req)
    (hdead : (s.icache.node req.nodeid).refcount = 0) :
    handle s.fuel s.icache req = .error (.trap .nullPointer) ∨
      (req.isFlock = true ∧ handle s.fuel s.icache req = .ok (none, s.icache)) := by
  have hnamed := h.named hallowed.named
  have hnone : getNode s.icache req.nodeid = .error (.trap .nullPointer) := getNode_none h.linked hnamed hdead
  cases req with
  | lookup parent sys => exact .inl (by rw [handle, famfsDoLookup, show getNode _ parent = _ from hnone]; rfl)
  | forget nodeid nlookup => exact .inl (by rw [handle, famfsForgetOne, show getNode _ nodeid = _ from hnone]; rfl)
  | getattr nodeid => exact .inl (by rw [handle, famfsGetattr, show getNode _ nodeid = _ from hnone]; rfl)
  | setattr nodeid size => exact .inl (by rw [handle, famfsSetattr, show getNode _ nodeid = _ from hnone]; rfl)
  | openFile nodeid => exact .inl (by rw [handle, famfsOpen, show getNode _ nodeid = _ from hnone]; rfl)
  | release nodeid => exact .inl (by rw [handle, famfsRelease, show getNode _ nodeid = _ from hnone]; rfl)
  | flock nodeid op =>
    have hget : famfsGetInodeFromNodeid s.icache nodeid = .ok (none, s.icache) := getInodeFromNodeid_none h.linked hnamed hdead
    obtain ⟨kind, lockNb⟩ := op
    rw [handle, famfsFlock, hget]
    cases lockNb with
    | true => exact .inr ⟨rfl, by cases kind <;> rfl⟩
    | false =>
      cases kind with
      | sh => exact .inr ⟨rfl, rfl⟩
      | ex => exact .inl rfl
      | un => exact .inl rfl

theorem FuseOk.step (h : FuseOk s L extra) (hstep : FuseStep s req t) : ∃ L' extra', FuseOk t L' extra' := by
  obtain ⟨hallowed, hserve⟩ := hstep
  rcases Nat.eq_zero_or_pos (s.icache.node req.nodeid).refcount with hdead | halive
  · rcases h.serve_dead hallowed hdead with herror | ⟨hflock, hsame⟩
    · simp [FuseState.serve, herror] at hserve
    · rw [serve_eq hsame, Option.some.injEq] at hserve
      subst hserve
      cases req with
      | flock nodeid op => exact ⟨L, extra, h⟩
      | _ => simp [Request.isFlock] at hflock
  · rcases h.serve_alive hallowed halive with ⟨-, hblocked⟩ | ⟨u, L', hu, hok, -⟩
    · simp [FuseState.serve, hblocked] at hserve
    · rw [hu, Option.some.injEq] at hserve
      exact ⟨L', _, hserve ▸ hok⟩

theorem trace_sound {reqs : List Request} {l : List (Request × FuseState)} (h : s.trace reqs = some l) :
    Trace FuseStep s l ∧ l.map Prod.fst = reqs := by
  induction reqs generalizing s l with
  | nil =>
    rw [FuseState.trace, Option.some.injEq] at h
    exact h ▸ ⟨trivial, rfl⟩
  | cons req reqs ih =>
    rw [FuseState.trace] at h
    split_ifs at h with hallowed
    simp only [Option.bind_eq_bind, Option.bind_eq_some_iff, Option.some.injEq] at h
    obtain ⟨t, ht, rest, hrest, rfl⟩ := h
    obtain ⟨htrace, hlabels⟩ := ih hrest
    exact ⟨⟨⟨hallowed, ht⟩, htrace⟩, by rw [List.map_cons, hlabels]⟩

theorem fuseOk_init (rootFd : ℤ) : FuseOk (FuseState.init rootFd) [] fun _ => 0 :=
  (icacheOk_init rootFd).reweigh fun b => by simp [FuseState.weight, FuseState.init]

end Famfs.Fused
