import Famfs.Lib.Runs
import Famfs.Spec.Readdir

/-! Directories read in pieces. The daemon keeps an entry that did not fit for the next request and
moves the stream only when a request does not go on where the last one ended. A reply depends on
neither: it is what follows the offset of the request, as far as there is room. -/

namespace Famfs

variable {entsize : Bool → CStr → ℕ} {call : ReaddirCall} {dir : Directory} {d : FamfsDirp} {offset : ℕ}

/-- `seekdir` with the `d_off` of an entry goes to the place after it. -/
structure Directory.Seekable (dir : Directory) : Prop where
  start : dir.seek 0 = 0
  after : ∀ i e, dir.entries[i]? = some e → dir.seek e.off = i + 1

def FamfsDirp.left (d : FamfsDirp) : List Dirent := d.entry.toList ++ d.dp

def FamfsDirp.InPlace (dir : Directory) (d : FamfsDirp) : Prop := d.left = dir.entries.drop (dir.seek d.offset)

theorem opendir_inPlace (hdir : dir.Seekable) : (famfsOpendir dir).InPlace dir := by
  simp [FamfsDirp.InPlace, FamfsDirp.left, famfsOpendir, hdir.start]

theorem drop_cons {e : Dirent} {dp l : List Dirent} {n : ℕ} (h : l.drop n = e :: dp) : l[n]? = some e ∧ l.drop (n + 1) = dp := by
  have hn : n < l.length := by
    by_contra hge
    rw [List.drop_eq_nil_of_le (by omega)] at h
    cases h
  rw [List.drop_eq_getElem_cons hn, List.cons.injEq] at h
  exact ⟨by rw [List.getElem?_eq_getElem hn, h.1], h.2⟩

theorem readdirLoop_split (entsize : Bool → CStr → ℕ) (call : ReaddirCall) (hdir : dir.Seekable) (rem offset : ℕ) (cached : Bool) {l : List Dirent}
    (hl : l = dir.entries.drop (dir.seek offset)) :
    (readdirLoop entsize call rem offset cached l).stored.map Prod.fst ++
        (readdirLoop entsize call rem offset cached l).dirp.left = l ∧
      (readdirLoop entsize call rem offset cached l).dirp.InPlace dir := by
  induction l generalizing rem offset cached with
  | nil =>
    rw [readdirLoop]
    split
    · exact ⟨rfl, hl⟩
    · exact ⟨rfl, hl⟩
  | cons e dp ih =>
    obtain ⟨hget, hdrop⟩ := drop_cons hl.symm
    rw [readdirLoop]
    split
    · exact ⟨rfl, hl⟩
    · split
      · exact ⟨rfl, hl⟩
      · split_ifs
        · exact ⟨rfl, hl⟩
        · obtain ⟨hsplit, hplace⟩ := ih (rem - entsize call.plus e.name) e.off false (by rw [hdir.after _ e hget, hdrop])
          exact ⟨congrArg (e :: ·) hsplit, hplace⟩

def FamfsDirp.moved (dir : Directory) (offset : ℕ) (d : FamfsDirp) : FamfsDirp :=
  if offset = d.offset then d else ⟨dir.entries.drop (dir.seek offset), none, offset⟩

theorem FamfsDirp.InPlace.moved (h : d.InPlace dir) (offset : ℕ) :
    (d.moved dir offset).left = dir.entries.drop (dir.seek offset) ∧ (d.moved dir offset).offset = offset := by
  unfold FamfsDirp.moved
  split_ifs with hoffset
  · subst hoffset
    exact ⟨h, rfl⟩
  · exact ⟨rfl, rfl⟩

theorem famfsDoReaddir_eq (entsize : Bool → CStr → ℕ) (h : d.InPlace dir) (hmem : call.mem = true) (offset : ℕ) : ∃ cached,
    famfsDoReaddir entsize call dir offset d =
      ((readdirLoop entsize call call.size offset cached (dir.entries.drop (dir.seek offset))).reply entsize call,
        (readdirLoop entsize call call.size offset cached (dir.entries.drop (dir.seek offset))).forgotten,
        (readdirLoop entsize call call.size offset cached (dir.entries.drop (dir.seek offset))).dirp) := by
  obtain ⟨hleft, hoffset⟩ := h.moved offset
  have hrun : famfsDoReaddir entsize call dir offset d =
      ((readdirFrom entsize call (d.moved dir offset)).reply entsize call,
        (readdirFrom entsize call (d.moved dir offset)).forgotten, (readdirFrom entsize call (d.moved dir offset)).dirp) := by
    rw [famfsDoReaddir, if_pos hmem]
    rfl
  rw [hrun]
  generalize d.moved dir offset = m at hleft hoffset
  obtain ⟨dp, entry, off⟩ := m
  subst hoffset
  cases entry with
  | none => exact ⟨false, by rw [← hleft]; rfl⟩
  | some e => exact ⟨true, by rw [← hleft]; rfl⟩

theorem famfsDoReaddir_inPlace (hdir : dir.Seekable) (h : d.InPlace dir) :
    (famfsDoReaddir entsize call dir offset d).2.2.InPlace dir := by
  by_cases hmem : call.mem = true
  · obtain ⟨cached, heq⟩ := famfsDoReaddir_eq entsize h hmem offset
    rw [heq]
    exact (readdirLoop_split entsize call hdir _ _ _ rfl).2
  · rw [famfsDoReaddir, if_neg hmem]
    exact h

def readdirs (entsize : Bool → CStr → ℕ) (dir : Directory) (calls : List (ReaddirCall × ℕ)) : FamfsDirp :=
  calls.foldl (fun d c => (famfsDoReaddir entsize c.1 dir c.2 d).2.2) (famfsOpendir dir)

theorem readdirs_inPlace (hdir : dir.Seekable) (calls : List (ReaddirCall × ℕ)) : (readdirs entsize dir calls).InPlace dir := by
  unfold readdirs
  induction calls using List.reverseRecOn with
  | nil => exact opendir_inPlace hdir
  | append_singleton calls c ih =>
    rw [List.foldl_concat]
    exact famfsDoReaddir_inPlace hdir ih

def storedSize (entsize : Bool → CStr → ℕ) (call : ReaddirCall) (stored : List (Dirent × ℕ)) : ℕ :=
  (stored.map fun e => entsize call.plus e.1.name).sum

/-- Why a request ends: there is nothing left, the next entry does not fit, its lookup fails, it
cannot be read, or there is no memory. -/
inductive ReaddirStops (entsize : Bool → CStr → ℕ) (call : ReaddirCall) (rem : ℕ) (es : List (Dirent × ℕ)) :
    List Dirent → Except ℤ Unit → ℕ → Prop
  | done : ReaddirStops entsize call rem es [] (.ok ()) 0
  | full {e : Dirent} {rest : List Dirent} {nodeid : ℕ} (hlookup : call.nodeid e = .ok nodeid)
      (hfull : rem < storedSize entsize call es + entsize call.plus e.name) :
      ReaddirStops entsize call rem es (e :: rest) (.ok ()) nodeid
  | failed {e : Dirent} {rest : List Dirent} {err : ℤ} (hlookup : call.nodeid e = .error err) :
      ReaddirStops entsize call rem es (e :: rest) (.error err) 0
  | unread {rest : List Dirent} {err : ℤ} (hread : call.readErr rest.length = some err) :
      ReaddirStops entsize call rem es rest (.error err) 0
  | noMemory {rest : List Dirent} (hmem : call.mem = false) : ReaddirStops entsize call rem es rest (.error ENOMEM) 0

theorem readdirLoop_stops (entsize : Bool → CStr → ℕ) (call : ReaddirCall) (rem offset : ℕ) (cached : Bool) (l : List Dirent) :
    (∀ x ∈ (readdirLoop entsize call rem offset cached l).stored, call.nodeid x.1 = .ok x.2) ∧
    storedSize entsize call (readdirLoop entsize call rem offset cached l).stored ≤ rem ∧
    ReaddirStops entsize call rem (readdirLoop entsize call rem offset cached l).stored
      (readdirLoop entsize call rem offset cached l).dirp.left (readdirLoop entsize call rem offset cached l).stop
      (readdirLoop entsize call rem offset cached l).forgotten := by
  induction l generalizing rem offset cached with
  | nil =>
    cases hread : call.readErr 0 with
    | none =>
      simp only [readdirLoop, hread]
      exact ⟨nofun, Nat.zero_le _, .done⟩
    | some err =>
      simp only [readdirLoop, hread]
      exact ⟨nofun, Nat.zero_le _, .unread hread⟩
  | cons e dp ih =>
    cases hread : if cached = true then none else call.readErr (dp.length + 1) with
    | some err =>
      simp only [readdirLoop, hread]
      split_ifs at hread
      exact ⟨nofun, Nat.zero_le _, .unread hread⟩
    | none =>
      simp only [readdirLoop, hread]
      cases hlookup : call.nodeid e with
      | error err => exact ⟨nofun, Nat.zero_le _, .failed hlookup⟩
      | ok nodeid =>
        by_cases hfit : rem < entsize call.plus e.name
        · simp only [if_pos hfit]
          exact ⟨nofun, Nat.zero_le _, .full hlookup (by simpa [storedSize] using hfit)⟩
        · simp only [if_neg hfit]
          obtain ⟨hok, hle, hstops⟩ := ih (rem - entsize call.plus e.name) e.off false
          generalize readdirLoop entsize call (rem - entsize call.plus e.name) e.off false dp = out at hok hle hstops
          have hsize : storedSize entsize call ((e, nodeid) :: out.stored) =
              entsize call.plus e.name + storedSize entsize call out.stored := rfl
          refine ⟨List.forall_mem_cons.2 ⟨hlookup, hok⟩, ?_, ?_⟩
          · rw [hsize]
            omega
          · generalize out.dirp.left = left, out.stop = stop, out.forgotten = forgotten at hstops
            cases hstops with
            | done => exact .done
            | full hlookup hfull => exact .full hlookup (by rw [hsize]; omega)
            | failed hlookup => exact .failed hlookup
            | unread hread => exact .unread hread
            | noMemory hmem => exact .noMemory hmem

/-- Whatever was read before, and wherever those requests ended, a request gets the entries that follow
its offset, each with the nodeid of its lookup, as many as there is room for. It forgets the lookup of
an entry that does not fit, and it reports an error only if the first of its entries has one. -/
theorem readdir_history_free (entsize : Bool → CStr → ℕ) (hdir : dir.Seekable) (calls : List (ReaddirCall × ℕ))
    (call : ReaddirCall) (hsize : ∀ name, 0 < entsize call.plus name) (offset : ℕ) :
    ∃ es rest, dir.entries.drop (dir.seek offset) = es.map Prod.fst ++ rest ∧
      (∀ x ∈ es, call.nodeid x.1 = .ok x.2) ∧ storedSize entsize call es ≤ call.size ∧
      ∃ stop, ReaddirStops entsize call call.size es rest stop
          (famfsDoReaddir entsize call dir offset (readdirs entsize dir calls)).2.1 ∧
        (famfsDoReaddir entsize call dir offset (readdirs entsize dir calls)).1 =
          match stop, es with
          | .error err, [] => .err err
          | _, es => .buf es := by
  cases hmem : call.mem with
  | false =>
    have hnone : famfsDoReaddir entsize call dir offset (readdirs entsize dir calls) = (.err ENOMEM, 0, readdirs entsize dir calls) := by
      rw [famfsDoReaddir, hmem]
      rfl
    rw [hnone]
    exact ⟨[], dir.entries.drop (dir.seek offset), rfl, nofun, Nat.zero_le _, .error ENOMEM, .noMemory hmem, rfl⟩
  | true =>
    obtain ⟨cached, heq⟩ := famfsDoReaddir_eq entsize (readdirs_inPlace hdir calls) hmem offset
    obtain ⟨hsplit, -⟩ := readdirLoop_split entsize call hdir call.size offset cached rfl
    obtain ⟨hok, hle, hstops⟩ := readdirLoop_stops entsize call call.size offset cached
      (dir.entries.drop (dir.seek offset))
    rw [heq]
    generalize readdirLoop entsize call call.size offset cached (dir.entries.drop (dir.seek offset)) = out at hsplit hok hle hstops
    refine ⟨out.stored, out.dirp.left, hsplit.symm, hok, hle, out.stop, hstops, ?_⟩
    obtain ⟨stored, stop, dirp, forgotten⟩ := out
    simp only [ReaddirLoop.reply]
    cases stop with
    | ok _ => rfl
    | error err =>
      cases stored with
      | nil => rfl
      | cons e stored =>
        have hpos : ¬ (((e :: stored).map fun e => entsize call.plus e.1.name).sum = 0) := by
          have := hsize e.1.name
          rw [List.map_cons, List.sum_cons]
          omega
        simp only [if_neg hpos]

def ReaddirReply.entries : ReaddirReply → List Dirent
  | .err _ => []
  | .buf es => es.map Prod.fst

def nextOffset (got : List Dirent) : ℕ := (got.getLast?.map Dirent.off).getD 0

/-- A reader that always goes on after the last entry it got: the stream, and what it has. -/
def listing (entsize : Bool → CStr → ℕ) (dir : Directory) (calls : List ReaddirCall) : FamfsDirp × List Dirent :=
  calls.foldl (fun s call =>
    let out := famfsDoReaddir entsize call dir (nextOffset s.2) s.1
    (out.2.2, s.2 ++ out.1.entries)) (famfsOpendir dir, [])

theorem seek_nextOffset (hdir : dir.Seekable) {got rest : List Dirent} (h : dir.entries = got ++ rest) :
    dir.seek (nextOffset got) = got.length := by
  induction got using List.reverseRecOn with
  | nil => exact hdir.start
  | append_singleton got e _ =>
    have hget : dir.entries[got.length]? = some e := by
      rw [h]
      simp
    simpa [nextOffset] using hdir.after _ e hget

theorem reply_prefix (entsize : Bool → CStr → ℕ) (call : ReaddirCall) (hdir : dir.Seekable) (h : d.InPlace dir) (offset : ℕ) :
    (famfsDoReaddir entsize call dir offset d).1.entries <+: dir.entries.drop (dir.seek offset) := by
  by_cases hmem : call.mem = true
  · obtain ⟨cached, heq⟩ := famfsDoReaddir_eq entsize h hmem offset
    obtain ⟨hsplit, -⟩ := readdirLoop_split entsize call hdir call.size offset cached rfl
    rw [heq]
    generalize readdirLoop entsize call call.size offset cached (dir.entries.drop (dir.seek offset)) = out at hsplit
    rw [← hsplit, ReaddirLoop.reply]
    split
    · split_ifs
      · exact List.nil_prefix
      · exact List.prefix_append _ _
    · exact List.prefix_append _ _
  · rw [famfsDoReaddir, if_neg hmem]
    exact List.nil_prefix

theorem listing_prefix (entsize : Bool → CStr → ℕ) (hdir : dir.Seekable) (calls : List ReaddirCall) :
    (listing entsize dir calls).1.InPlace dir ∧ ∃ rest, dir.entries = (listing entsize dir calls).2 ++ rest := by
  unfold listing
  induction calls using List.reverseRecOn with
  | nil => exact ⟨opendir_inPlace hdir, dir.entries, rfl⟩
  | append_singleton calls call ih =>
    rw [List.foldl_concat]
    generalize List.foldl _ _ calls = s at ih
    obtain ⟨hplace, rest, hrest⟩ := ih
    refine ⟨famfsDoReaddir_inPlace hdir hplace, ?_⟩
    obtain ⟨rest', hrest'⟩ := reply_prefix entsize call hdir hplace (nextOffset s.2)
    rw [seek_nextOffset hdir hrest] at hrest'
    have hdrop : dir.entries.drop s.2.length = rest := by
      rw [hrest, List.drop_left]
    rw [hdrop] at hrest'
    refine ⟨rest', ?_⟩
    rw [List.append_assoc, hrest', ← hrest]

/-- A reader of a directory gets its entries in order, each of them once, whatever the sizes of its
requests and whatever fails on the way. An empty reply to a request with room for any entry means that
it has all of them. -/
theorem readdir_lists_once (entsize : Bool → CStr → ℕ) (hdir : dir.Seekable) (calls : List ReaddirCall) :
    (listing entsize dir calls).2 <+: dir.entries ∧
    ∀ call : ReaddirCall, (∀ e ∈ dir.entries, entsize call.plus e.name ≤ call.size) →
      (famfsDoReaddir entsize call dir (nextOffset (listing entsize dir calls).2) (listing entsize dir calls).1).1 = .buf [] →
      (listing entsize dir calls).2 = dir.entries := by
  obtain ⟨hplace, rest, hrest⟩ := listing_prefix entsize hdir calls
  refine ⟨⟨rest, hrest.symm⟩, fun call hroom hempty => ?_⟩
  have hmem : call.mem = true := by
    by_contra hmem
    rw [famfsDoReaddir, if_neg hmem] at hempty
    cases hempty
  obtain ⟨cached, heq⟩ := famfsDoReaddir_eq entsize hplace hmem (nextOffset (listing entsize dir calls).2)
  have hdrop : dir.entries.drop (dir.seek (nextOffset (listing entsize dir calls).2)) = rest := by
    rw [seek_nextOffset hdir hrest, hrest, List.drop_left]
  obtain ⟨hsplit, -⟩ := readdirLoop_split entsize call hdir call.size (nextOffset (listing entsize dir calls).2) cached rfl
  obtain ⟨-, -, hstops⟩ := readdirLoop_stops entsize call call.size (nextOffset (listing entsize dir calls).2) cached
    (dir.entries.drop (dir.seek (nextOffset (listing entsize dir calls).2)))
  rw [heq] at hempty
  rw [hdrop] at hempty hsplit hstops
  generalize readdirLoop entsize call call.size (nextOffset (listing entsize dir calls).2) cached rest = out at hempty hsplit hstops
  -- nothing was stored and nothing failed, so there is nothing left
  have hstored : out.stored = [] := by
    rw [ReaddirLoop.reply] at hempty
    split at hempty
    · split_ifs at hempty
      simpa using hempty
    · simpa using hempty
  rw [hstored, List.map_nil, List.nil_append] at hsplit
  rw [hstored, hsplit] at hstops
  have hnone : rest = [] := by
    generalize hstop : out.stop = stop, out.forgotten = forgotten at hstops
    cases hstops with
    | done => rfl
    | @full e rest' nodeid hlookup hfull =>
      have hfits := hroom e (by rw [hrest]; simp)
      simp only [storedSize, List.map_nil, List.sum_nil] at hfull
      omega
    | failed hlookup | unread hread | noMemory hnot =>
      rw [ReaddirLoop.reply, hstop, hstored] at hempty
      simp at hempty
  rw [hrest, hnone, List.append_nil]

/-! Three entries whose offsets are in no order, read with a buffer that takes two of them. -/

def threeEntries : Directory where
  entries := [⟨[46], 5, 4, 7⟩, ⟨[97], 6, 8, 9⟩, ⟨[98], 7, 8, 3⟩]
  seek off := if off = 7 then 1 else if off = 9 then 2 else if off = 3 then 3 else 0

theorem threeEntries_seekable : threeEntries.Seekable := by
  refine ⟨rfl, fun i e he => ?_⟩
  rcases i with _ | _ | _ | i
  · cases he
    rfl
  · cases he
    rfl
  · cases he
    rfl
  · simp [threeEntries] at he

def twoFit : ReaddirCall := ⟨70, true, true, fun _ => none, fun e => .ok (e.ino * 16)⟩

/-- The request after a full buffer starts with the entry that did not fit. -/
theorem readdir_history_free_three :
    (famfsDoReaddir (fun _ name => 24 + name.length) twoFit threeEntries 9
        (readdirs (fun _ name => 24 + name.length) threeEntries [(twoFit, 0)])).1 = .buf [(⟨[98], 7, 8, 3⟩, 112)] ∧
    ∃ es rest, threeEntries.entries.drop (threeEntries.seek 9) = es.map Prod.fst ++ rest ∧
      storedSize (fun _ name => 24 + name.length) twoFit es ≤ twoFit.size := by
  obtain ⟨es, rest, hsplit, -, hle, -⟩ := readdir_history_free (fun _ name => 24 + name.length) threeEntries_seekable
    [(twoFit, 0)] twoFit (fun _ => by omega) 9
  exact ⟨by decide, es, rest, hsplit, hle⟩

/-- Two requests list it. -/
theorem readdir_lists_once_three :
    (listing (fun _ name => 24 + name.length) threeEntries [twoFit, twoFit]).2 = threeEntries.entries :=
  (readdir_lists_once (fun _ name => 24 + name.length) threeEntries_seekable [twoFit, twoFit]).2 twoFit (by decide)
    (by decide)

end Famfs
