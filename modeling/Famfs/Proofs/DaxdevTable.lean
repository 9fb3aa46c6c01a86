import Famfs.Spec.Log

/-! The table of dax devices over a whole replay. The devices that are taken are those of
the greedy dense subsequence of the entries: each is the next index and a new uuid, as
long as there is room. The table holds exactly them, in their slots. -/

namespace Famfs

open Machine

variable {max : ℤ} {t : DaxdevTable} {primary : FamfsDaxdev} {taken : List FamfsLogAddDaxdev}

def NextDevice (max : ℤ) (primary : FamfsDaxdev) (taken : List FamfsLogAddDaxdev) (dd : FamfsLogAddDaxdev) : Prop :=
  (taken.length : ℤ) + 1 < max ∧ dd.ddIndex = taken.length + 1 ∧ dd.ddUuid ∉ primary.ddUuid :: taken.map (·.ddUuid)

instance (dd : FamfsLogAddDaxdev) : Decidable (NextDevice max primary taken dd) := by
  unfold NextDevice
  infer_instance

def takeDevice (max : ℤ) (primary : FamfsDaxdev) (taken : List FamfsLogAddDaxdev) (le : FamfsLogEntry) : List FamfsLogAddDaxdev :=
  match le.body with
  | .dd dd => if NextDevice max primary taken dd then taken ++ [dd] else taken
  | _ => taken

/-- The devices that a replay takes, whatever the table does. -/
def denseDevices (max : ℤ) (primary : FamfsDaxdev) (entries : List FamfsLogEntry) : List FamfsLogAddDaxdev :=
  entries.foldl (takeDevice max primary) []

def acceptedDevice (rc : ℤ) (le : FamfsLogEntry) : List FamfsLogAddDaxdev :=
  match le.body with
  | .dd dd => if rc = 0 then [dd] else []
  | _ => []

/-- The devices of the entries for which `famfs_daxdev_table_add` returns zero. -/
def acceptedDevices (max : ℤ) : DaxdevTable → List FamfsLogEntry → List FamfsLogAddDaxdev
  | _, [] => []
  | t, le :: entries =>
    acceptedDevice (famfsDaxdevTableAdd max t le).1 le ++ acceptedDevices max (famfsDaxdevTableAdd max t le).2 entries

/-- The table holds the primary and the devices that were taken. -/
structure TableHolds (max : ℤ) (primary : FamfsDaxdev) (taken : List FamfsLogAddDaxdev) (t : DaxdevTable) : Prop where
  count : t.ndevs = taken.length + 1
  room : 1 ≤ t.ndevs ∧ t.ndevs ≤ max
  seeded : t.table 0 = primary
  slot : ∀ i dd, taken[i]? = some dd → t.table (i + 1) = ⟨dd.ddSize, dd.ddUuid, []⟩ ∧ dd.ddIndex = i + 1
  distinct : ∀ i j : ℕ, (i : ℤ) < t.ndevs → (j : ℤ) < t.ndevs → (t.table i).ddUuid = (t.table j).ddUuid → i = j

def Acceptable (max : ℤ) (t : DaxdevTable) (le : FamfsLogEntry) : Prop :=
  ∃ dd, le.body = .dd dd ∧ t.ndevs < max ∧ (dd.ddIndex : ℤ) = t.ndevs ∧
    ∀ i : ℕ, (i : ℤ) < t.ndevs → (t.table i).ddUuid ≠ dd.ddUuid

theorem uuidInTable_iff {uuid : List UInt8} (hpos : 0 ≤ t.ndevs) :
    uuidInTable t uuid = true ↔ ∃ i : ℕ, (i : ℤ) < t.ndevs ∧ (t.table i).ddUuid = uuid := by
  simp only [uuidInTable, List.any_eq_true, List.mem_range, decide_eq_true_eq]
  constructor
  · rintro ⟨i, hi, heq⟩
    exact ⟨i, by omega, heq⟩
  · rintro ⟨i, hi, heq⟩
    exact ⟨i, by omega, heq⟩

theorem tableAdd_cases (hpos : 0 ≤ t.ndevs) (hint : max < 2 ^ 31) (le : FamfsLogEntry) :
    (∃ dd, le.body = .dd dd ∧ Acceptable max t le ∧ famfsDaxdevTableAdd max t le =
        (0, ⟨Function.update t.table t.ndevs.toNat ⟨dd.ddSize, dd.ddUuid, []⟩, t.ndevs + 1⟩)) ∨
      (¬ Acceptable max t le ∧ ∃ rc, rc ≠ 0 ∧ famfsDaxdevTableAdd max t le = (rc, t)) := by
  rw [famfsDaxdevTableAdd, if_neg (by omega)]
  cases hbody : le.body with
  | fm m => exact .inr ⟨fun ⟨dd, hdd, _⟩ => by simp [hbody] at hdd, _, by decide, rfl⟩
  | md m => exact .inr ⟨fun ⟨dd, hdd, _⟩ => by simp [hbody] at hdd, _, by decide, rfl⟩
  | other ty raw => exact .inr ⟨fun ⟨dd, hdd, _⟩ => by simp [hbody] at hdd, _, by decide, rfl⟩
  | dd dd =>
    have hsame : ∀ {d}, le.body = .dd d → d = dd := fun hd => by
      rw [hbody] at hd
      exact (FamfsLogEntryBody.dd.inj hd).symm
    simp only
    by_cases hfull : max ≤ t.ndevs
    · rw [if_pos hfull]
      exact .inr ⟨fun ⟨_, _, hroom, _⟩ => by omega, _, by decide, rfl⟩
    rw [if_neg hfull]
    have hcount : u32 t.ndevs.toNat = t.ndevs.toNat := u32_of_lt (by omega)
    by_cases hindex : dd.ddIndex ≠ u32 t.ndevs.toNat
    · rw [if_pos hindex]
      refine .inr ⟨?_, _, by decide, rfl⟩
      rintro ⟨d, hd, -, heq, -⟩
      rw [hsame hd] at heq
      omega
    rw [if_neg hindex]
    by_cases hknown : uuidInTable t dd.ddUuid = true
    · rw [if_pos hknown]
      refine .inr ⟨?_, _, by decide, rfl⟩
      rintro ⟨d, hd, -, -, hnew⟩
      obtain ⟨i, hi, heq⟩ := (uuidInTable_iff hpos).1 hknown
      exact hnew i hi (by rw [heq, hsame hd])
    · rw [if_neg hknown]
      refine .inl ⟨dd, rfl, ⟨dd, hbody, by omega, by omega, ?_⟩, rfl⟩
      intro i hi heq
      exact hknown ((uuidInTable_iff hpos).2 ⟨i, hi, heq⟩)

theorem TableHolds.uuid_iff (h : TableHolds max primary taken t) (uuid : List UInt8) :
    (∀ i : ℕ, (i : ℤ) < t.ndevs → (t.table i).ddUuid ≠ uuid) ↔ uuid ∉ primary.ddUuid :: taken.map (·.ddUuid) := by
  have hcount := h.count
  rw [List.mem_cons, List.mem_map, not_or]
  constructor
  · intro hnew
    refine ⟨fun heq => hnew 0 (by omega) (by rw [h.seeded, heq]), ?_⟩
    rintro ⟨dd, hmem, heq⟩
    obtain ⟨i, hi⟩ := List.getElem?_of_mem hmem
    have hlt := (List.getElem?_eq_some_iff.1 hi).1
    exact hnew (i + 1) (by omega) (by rw [(h.slot i dd hi).1, heq])
  · rintro ⟨hprimary, hnone⟩ i hi heq
    cases i with
    | zero => exact hprimary (by rw [← heq, h.seeded])
    | succ i =>
      have hlt : i < taken.length := by omega
      have hsome := List.getElem?_eq_getElem hlt
      exact hnone ⟨taken[i], List.getElem_mem hlt, by rw [← heq, (h.slot i _ hsome).1]⟩

theorem TableHolds.acceptable_iff (h : TableHolds max primary taken t) {le : FamfsLogEntry} {dd : FamfsLogAddDaxdev}
    (hbody : le.body = .dd dd) : Acceptable max t le ↔ NextDevice max primary taken dd := by
  have hcount := h.count
  rw [NextDevice, ← h.uuid_iff]
  constructor
  · rintro ⟨d, hd, hroom, hindex, hnew⟩
    rw [hbody] at hd
    cases hd
    exact ⟨by omega, by omega, hnew⟩
  · rintro ⟨hroom, hindex, hnew⟩
    exact ⟨dd, hbody, by omega, by omega, hnew⟩

theorem TableHolds.append (h : TableHolds max primary taken t) {dd : FamfsLogAddDaxdev} (hroom : t.ndevs < max)
    (hindex : (dd.ddIndex : ℤ) = t.ndevs) (hnew : ∀ i : ℕ, (i : ℤ) < t.ndevs → (t.table i).ddUuid ≠ dd.ddUuid) :
    TableHolds max primary (taken ++ [dd])
      ⟨Function.update t.table t.ndevs.toNat ⟨dd.ddSize, dd.ddUuid, []⟩, t.ndevs + 1⟩ := by
  have hcount := h.count
  have hslot : t.ndevs.toNat = taken.length + 1 := by omega
  rw [hslot]
  refine ⟨?_, ?_, ?_, ?_, ?_⟩
  · simp [hcount]
  · dsimp only
    omega
  · dsimp only
    rw [Function.update_of_ne (Nat.succ_ne_zero _).symm, h.seeded]
  · intro i d hd
    dsimp only
    rcases Nat.lt_trichotomy i taken.length with hi | rfl | hi
    · rw [List.getElem?_append_left hi] at hd
      rw [Function.update_of_ne (by omega)]
      exact h.slot i d hd
    · rw [List.getElem?_concat_length, Option.some.injEq] at hd
      subst hd
      rw [Function.update_self]
      exact ⟨rfl, by omega⟩
    · rw [List.getElem?_eq_none (by simp; omega)] at hd
      cases hd
  · -- the new uuid differs from every old one, and the old ones from each other
    dsimp only
    intro i j hi hj heq
    by_cases hinew : i = taken.length + 1
    · by_cases hjnew : j = taken.length + 1
      · omega
      · rw [hinew, Function.update_self, Function.update_of_ne hjnew] at heq
        exact absurd heq.symm (hnew j (by omega))
    · by_cases hjnew : j = taken.length + 1
      · rw [hjnew, Function.update_self, Function.update_of_ne hinew] at heq
        exact absurd heq (hnew i (by omega))
      · rw [Function.update_of_ne hinew, Function.update_of_ne hjnew] at heq
        exact h.distinct i j (by omega) (by omega) heq

theorem TableHolds.step (h : TableHolds max primary taken t) (hint : max < 2 ^ 31) (le : FamfsLogEntry) :
    takeDevice max primary taken le = taken ++ acceptedDevice (famfsDaxdevTableAdd max t le).1 le ∧
      TableHolds max primary (takeDevice max primary taken le) (famfsDaxdevTableAdd max t le).2 := by
  have hpos : 0 ≤ t.ndevs := by
    have := h.room.1
    omega
  rcases tableAdd_cases hpos hint le with ⟨dd, hbody, hacc, hadd⟩ | ⟨hrefused, rc, hrc, hadd⟩
  · have htake : takeDevice max primary taken le = taken ++ [dd] := by
      rw [takeDevice, hbody]
      exact if_pos ((h.acceptable_iff hbody).1 hacc)
    obtain ⟨d, hd, hroom, hindex, hnew⟩ := hacc
    rw [hbody] at hd
    cases hd
    rw [hadd, htake]
    refine ⟨by simp [acceptedDevice, hbody], h.append hroom hindex hnew⟩
  · have hsame : takeDevice max primary taken le = taken := by
      unfold takeDevice
      split
      · next dd hbody => rw [if_neg fun hnext => hrefused ((h.acceptable_iff hbody).2 hnext)]
      · rfl
    have hnone : acceptedDevice rc le = [] := by
      unfold acceptedDevice
      split
      · rw [if_neg hrc]
      · rfl
    rw [hadd, hsame, hnone, List.append_nil]
    exact ⟨rfl, h⟩

theorem TableHolds.fold (h : TableHolds max primary taken t) (hint : max < 2 ^ 31) (entries : List FamfsLogEntry) :
    entries.foldl (takeDevice max primary) taken = taken ++ acceptedDevices max t entries ∧
      TableHolds max primary (entries.foldl (takeDevice max primary) taken) (daxdevTableFold max t entries) := by
  induction entries generalizing t taken with
  | nil => exact ⟨(List.append_nil taken).symm, h⟩
  | cons le entries ih =>
    obtain ⟨htake, hheld⟩ := h.step hint le
    obtain ⟨hrest, hall⟩ := ih hheld
    refine ⟨?_, hall⟩
    rw [List.foldl_cons, hrest, htake, List.append_assoc]
    rfl

theorem tableHolds_seeded (hmax : 1 ≤ max) (hone : t.ndevs = 1) : TableHolds max (t.table 0) [] t := by
  refine ⟨by simp [hone], by omega, rfl, by simp, ?_⟩
  intro i j hi hj _
  omega

/-- A replay into a seeded table: the table holds the devices that were accepted, they are
the greedy dense subsequence of the entries, and the next entry is accepted exactly if
there is room, its index is the count and its uuid is new. -/
theorem daxdev_table_accumulates (hmax : 1 ≤ max) (hint : max < 2 ^ 31) (hone : t.ndevs = 1) (entries : List FamfsLogEntry) :
    TableHolds max (t.table 0) (acceptedDevices max t entries) (daxdevTableFold max t entries) ∧
      acceptedDevices max t entries = denseDevices max (t.table 0) entries ∧
      ∀ le, ((famfsDaxdevTableAdd max (daxdevTableFold max t entries) le).1 = 0 ↔
          Acceptable max (daxdevTableFold max t entries) le) ∧
        ((famfsDaxdevTableAdd max (daxdevTableFold max t entries) le).1 ≠ 0 →
          (famfsDaxdevTableAdd max (daxdevTableFold max t entries) le).2 = daxdevTableFold max t entries) := by
  obtain ⟨hdense, hheld⟩ := (tableHolds_seeded hmax hone).fold hint entries
  rw [List.nil_append] at hdense
  refine ⟨hdense ▸ hheld, hdense.symm, fun le => ?_⟩
  have hpos : 0 ≤ (daxdevTableFold max t entries).ndevs := by
    have := hheld.room.1
    omega
  rcases tableAdd_cases hpos hint le with ⟨dd, -, hacc, hadd⟩ | ⟨hrefused, rc, hrc, hadd⟩
  · rw [hadd]
    exact ⟨iff_of_true rfl hacc, fun hne => absurd rfl hne⟩
  · rw [hadd]
    exact ⟨iff_of_false hrc hrefused, fun _ => rfl⟩

def seededTable : DaxdevTable := ⟨fun _ => ⟨2 ^ 32, List.replicate 16 1, []⟩, 1⟩

def daxdevEntry (index size : ℕ) (uuid : UInt8) : FamfsLogEntry := ⟨0, .dd ⟨size, List.replicate 16 uuid, index⟩, 0⟩

/-- A gap, the next device, its uuid once more, and one more device than there is room for. -/
theorem daxdev_table_accumulates_three :
    acceptedDevices 3 seededTable [daxdevEntry 2 10 17, daxdevEntry 1 20 17, daxdevEntry 2 30 17, daxdevEntry 2 40 18,
        daxdevEntry 3 50 19] = [⟨20, List.replicate 16 17, 1⟩, ⟨40, List.replicate 16 18, 2⟩] ∧
      TableHolds 3 (seededTable.table 0) [⟨20, List.replicate 16 17, 1⟩, ⟨40, List.replicate 16 18, 2⟩]
        (daxdevTableFold 3 seededTable [daxdevEntry 2 10 17, daxdevEntry 1 20 17, daxdevEntry 2 30 17, daxdevEntry 2 40 18,
          daxdevEntry 3 50 19]) := by
  have htaken : acceptedDevices 3 seededTable [daxdevEntry 2 10 17, daxdevEntry 1 20 17, daxdevEntry 2 30 17,
      daxdevEntry 2 40 18, daxdevEntry 3 50 19] = [⟨20, List.replicate 16 17, 1⟩, ⟨40, List.replicate 16 18, 2⟩] := by decide
  have hmax : (1 : ℤ) ≤ 3 := by decide
  have hheld := (daxdev_table_accumulates hmax (by decide) (show seededTable.ndevs = 1 from rfl)
    [daxdevEntry 2 10 17, daxdevEntry 1 20 17, daxdevEntry 2 30 17, daxdevEntry 2 40 18, daxdevEntry 3 50 19]).1
  exact ⟨htaken, htaken ▸ hheld⟩

end Famfs
