import Mathlib.Tactic
import Mathlib.Data.List.Infix
import Mathlib.Data.List.DropRight

/-! Path names over a tree of nodes: a path string is cut at its slashes, and the
components are walked from a starting directory. There are no symbolic links. -/

namespace Paths

/-- A component, and a path from the root as its components. -/
abbrev Name := List UInt8
abbrev Path := List Name

def slash : UInt8 := 47
def dot : Name := [46]
def dotdot : Name := [46, 46]

/-- A component that names an entry of a directory. -/
structure Plain (c : Name) : Prop where
  nonempty : c ≠ []
  noSlash : slash ∉ c
  notDot : c ≠ dot
  notDotdot : c ≠ dotdot

instance (c : Name) : Decidable (Plain c) :=
  decidable_of_iff (c ≠ [] ∧ slash ∉ c ∧ c ≠ dot ∧ c ≠ dotdot)
    ⟨fun ⟨a, b, c, d⟩ => ⟨a, b, c, d⟩, fun ⟨a, b, c, d⟩ => ⟨a, b, c, d⟩⟩

def components (s : List UInt8) : List Name := (s.splitOn slash).filter fun c => c ≠ []

/-- The components below a directory as one relative path string. -/
def join : List Name → List UInt8
  | [] => []
  | [c] => c
  | c :: cs => c ++ slash :: join cs

/-- The absolute path string of a path. -/
def render (p : Path) : List UInt8 := slash :: join p

def stripSlashes (s : List UInt8) : List UInt8 := s.rdropWhile (· = slash)

/-- The POSIX functions of these names. -/
def basename (s : List UInt8) : List UInt8 :=
  if s = [] then dot
  else if stripSlashes s = [] then [slash]
  else (stripSlashes s).rtakeWhile (· ≠ slash)

def dirname (s : List UInt8) : List UInt8 :=
  if slash ∉ stripSlashes s then (if s.head? = some slash then [slash] else dot)
  else
    let d := stripSlashes ((stripSlashes s).rdropWhile (· ≠ slash))
    if d = [] then [slash] else d

theorem components_append_slash (a b : List UInt8) :
    components (a ++ slash :: b) = components a ++ components b := by
  rw [components, List.splitOn_append_cons_self, List.filter_append]
  rfl

theorem components_slash (b : List UInt8) : components (slash :: b) = components b :=
  components_append_slash [] b

theorem components_name {c : Name} (h0 : c ≠ []) (hs : slash ∉ c) : components c = [c] := by
  have hsplit : c.splitOn slash = [c] := by
    exact List.splitOn_eq_singleton hs
  rw [components, hsplit]
  simp [h0]

theorem components_mem {s : List UInt8} {c : Name} (h : c ∈ components s) : c ≠ [] ∧ slash ∉ c := by
  induction hn : s.length using Nat.strong_induction_on generalizing s with
  | _ n ih =>
    by_cases hs : slash ∈ s
    · obtain ⟨a, b, rfl⟩ := List.append_of_mem hs
      rw [components_append_slash, List.mem_append] at h
      simp only [List.length_append, List.length_cons] at hn
      rcases h with h | h
      · exact ih _ (by omega) h rfl
      · exact ih _ (by omega) h rfl
    · by_cases h0 : s = []
      · subst h0
        cases h
      · rw [components_name h0 hs, List.mem_singleton] at h
        exact h ▸ ⟨h0, hs⟩

/-- The components below a directory, each behind its slash. -/
def tail (cs : List Name) : List UInt8 := cs.flatMap fun c => slash :: c

theorem slash_join {cs : List Name} (h : cs ≠ []) : slash :: join cs = tail cs := by
  induction cs with
  | nil => exact absurd rfl h
  | cons c cs ih =>
    cases cs with
    | nil => simp [join, tail]
    | cons d ds =>
      have hcons : join (c :: d :: ds) = c ++ slash :: join (d :: ds) := rfl
      rw [hcons, ih (List.cons_ne_nil d ds)]
      rfl

theorem tail_concat (cs : List Name) (c : Name) : tail (cs ++ [c]) = tail cs ++ slash :: c := by
  simp [tail]

theorem render_eq_tail {p : Path} (h : p ≠ []) : render p = tail p := slash_join h

theorem tail_append (a b : List Name) : tail (a ++ b) = tail a ++ tail b := by simp [tail]

theorem components_append_tail (a : List UInt8) {cs : List Name} (h : ∀ c ∈ cs, Plain c) :
    components (a ++ tail cs) = components a ++ cs := by
  induction cs generalizing a with
  | nil => simp [tail]
  | cons c cs ih =>
    have hc := h c List.mem_cons_self
    have hsplit : a ++ tail (c :: cs) = (a ++ slash :: c) ++ tail cs := by simp [tail]
    rw [hsplit, ih _ fun d hd => h d (List.mem_cons_of_mem c hd), components_append_slash,
      components_name hc.nonempty hc.noSlash, List.append_assoc, List.singleton_append]

theorem components_render {p : Path} (h : ∀ c ∈ p, Plain c) : components (render p) = p := by
  cases p with
  | nil => rfl
  | cons c cs =>
    rw [render, slash_join (List.cons_ne_nil c cs)]
    exact components_append_tail [] h

theorem components_join {cs : List Name} (h : ∀ c ∈ cs, Plain c) : components (join cs) = cs := by
  have := components_render h
  rwa [render, components_slash] at this

section

variable {c : Name} (hc : Plain c) (a : List UInt8)

include hc

theorem stripSlashes_last : stripSlashes (a ++ slash :: c) = a ++ slash :: c := by
  rw [stripSlashes, List.rdropWhile_eq_self_iff]
  intro hne
  rw [List.getLast_append_of_ne_nil hne (List.cons_ne_nil _ _), List.getLast_cons hc.nonempty]
  intro h
  exact hc.noSlash (of_decide_eq_true h ▸ List.getLast_mem hc.nonempty)

theorem rdropWhile_last : (a ++ slash :: c).rdropWhile (· ≠ slash) = a ++ [slash] := by
  have hall : ∀ x ∈ c.reverse, (decide (x ≠ slash)) = true := by
    intro x hx
    have : x ≠ slash := fun h => hc.noSlash (h ▸ List.mem_reverse.1 hx)
    simpa using this
  have hrev : (a ++ slash :: c).reverse = c.reverse ++ slash :: a.reverse := by simp
  rw [List.rdropWhile, hrev, List.dropWhile_append_of_pos hall]
  simp

theorem basename_last : basename (a ++ slash :: c) = c := by
  have hne : a ++ slash :: c ≠ [] := by simp
  have hall : ∀ x ∈ c.reverse, (decide (x ≠ slash)) = true := by
    intro x hx
    have : x ≠ slash := fun h => hc.noSlash (h ▸ List.mem_reverse.1 hx)
    simpa using this
  have hrev : (a ++ slash :: c).reverse = c.reverse ++ slash :: a.reverse := by simp
  rw [basename, if_neg hne, stripSlashes_last hc, if_neg hne, List.rtakeWhile, hrev,
    List.takeWhile_append_of_pos hall]
  simp

theorem dirname_last :
    dirname (a ++ slash :: c) =
      if stripSlashes (a ++ [slash]) = [] then [slash] else stripSlashes (a ++ [slash]) := by
  rw [dirname, stripSlashes_last hc, if_neg (by simp), rdropWhile_last hc]

end

theorem components_stripSlashes (s : List UInt8) : components (stripSlashes s) = components s := by
  induction s using List.reverseRecOn with
  | nil => rfl
  | append_singleton s x ih =>
    by_cases hx : x = slash
    · subst hx
      rw [stripSlashes, List.rdropWhile_concat_pos _ _ _ (by simp), components_append_slash,
        show components [] = [] from rfl, List.append_nil]
      exact ih
    · rw [stripSlashes, List.rdropWhile_concat_neg _ _ _ (by simpa using hx)]

theorem stripSlashes_getLast {s : List UInt8} (hne : stripSlashes s ≠ []) : (stripSlashes s).getLast? ≠ some slash := by
  intro hslash
  rw [List.getLast?_eq_some_getLast hne] at hslash
  exact List.rdropWhile_last_not _ _ hne (decide_eq_true (Option.some.inj hslash))

theorem stripSlashes_head {s : List UInt8} (hne : stripSlashes s ≠ []) : (stripSlashes s).head? = s.head? := by
  obtain ⟨t, ht⟩ := List.rdropWhile_prefix (fun x => decide (x = slash)) s
  have happ : (stripSlashes s ++ t).head? = (stripSlashes s).head? := List.head?_append_of_ne_nil _ hne
  rw [← happ, stripSlashes, ht]

theorem components_dirname {c : Name} (hc : Plain c) (a : List UInt8) :
    components (dirname (a ++ slash :: c)) = components a := by
  have hstrip : components (stripSlashes (a ++ [slash])) = components a := by
    rw [components_stripSlashes, components_append_slash]
    simp [components]
  rw [dirname_last hc]
  split_ifs with h
  · rw [← hstrip, h]
    rfl
  · exact hstrip

theorem dirname_absolute {c : Name} (hc : Plain c) {a : List UInt8} (ha : a.head? = some slash) :
    (dirname (a ++ slash :: c)).head? = some slash := by
  rw [dirname_last hc]
  split_ifs with h
  · rfl
  · obtain ⟨t, ht⟩ := List.rdropWhile_prefix (fun x => decide (x = slash)) (a ++ [slash])
    cases hd : stripSlashes (a ++ [slash]) with
    | nil => exact absurd hd h
    | cons x xs =>
      rw [stripSlashes] at hd
      rw [hd] at ht
      cases a with
      | nil => cases ha
      | cons y ys =>
        simp only [List.cons_append, List.cons.injEq] at ht
        rw [ht.1]
        exact ha

theorem dirname_relative {c : Name} (hc : Plain c) {a : List UInt8} (hne : a ≠ []) (ha : a.head? ≠ some slash) :
    (dirname (a ++ slash :: c)).head? ≠ some slash ∧ dirname (a ++ slash :: c) ≠ [] := by
  obtain ⟨x, xs, rfl⟩ := List.exists_cons_of_ne_nil hne
  have hx : x ≠ slash := fun h => ha (congrArg some h)
  obtain ⟨t, ht⟩ := List.rdropWhile_prefix (fun x => decide (x = slash)) (x :: xs ++ [slash])
  cases hd : stripSlashes (x :: xs ++ [slash]) with
  | nil =>
    have hall := List.rdropWhile_eq_nil_iff.1 hd x (by simp)
    exact absurd (of_decide_eq_true hall) hx
  | cons y ys =>
    rw [dirname_last hc, hd, if_neg (List.cons_ne_nil y ys)]
    rw [stripSlashes] at hd
    rw [hd] at ht
    simp only [List.cons_append, List.cons.injEq] at ht
    rw [ht.1]
    exact ⟨ha, List.cons_ne_nil _ _⟩

theorem dirname_name {c : Name} (hc : Plain c) : dirname c = dot := by
  have hin : slash ∉ stripSlashes c := fun h => hc.noSlash ((List.rdropWhile_prefix _ c).subset h)
  have hhead : c.head? ≠ some slash := fun h => hc.noSlash (List.mem_of_head? h)
  rw [dirname, if_pos hin, if_neg hhead]

theorem basename_name {c : Name} (hc : Plain c) : basename c = c := by
  have hlast : ∀ hne : c ≠ [], ¬ (decide (c.getLast hne = slash)) = true := fun hne h =>
    hc.noSlash (of_decide_eq_true h ▸ List.getLast_mem hne)
  have hstrip : stripSlashes c = c := List.rdropWhile_eq_self_iff.2 hlast
  have hall : ∀ x ∈ c, (decide (x ≠ slash)) = true := by
    intro x hx
    have : x ≠ slash := fun h => hc.noSlash (h ▸ hx)
    simpa using this
  rw [basename, if_neg hc.nonempty, hstrip, if_neg hc.nonempty, List.rtakeWhile_eq_self_iff.2 hall]

section

variable {p : Path} {a b : List Name} {c : Name}

theorem render_concat (p : Path) (c : Name) : render (p ++ [c]) = tail p ++ slash :: c := by
  rw [render_eq_tail (by simp), tail_concat]

theorem basename_render (hc : Plain c) (p : Path) : basename (render (p ++ [c])) = c := by
  rw [render_concat, basename_last hc]

theorem dirname_render (hpl : ∀ d ∈ p, Plain d) : dirname (render p) = render p.dropLast := by
  induction p using List.reverseRecOn with
  | nil => decide
  | append_singleton q c _ =>
    have hc : Plain c := hpl c (by simp)
    rw [render_concat, dirname_last hc, List.dropLast_concat]
    induction q using List.reverseRecOn with
    | nil => decide
    | append_singleton q d _ =>
      have hd : Plain d := hpl d (by simp)
      have hstrip : stripSlashes (tail (q ++ [d]) ++ [slash]) = tail (q ++ [d]) := by
        rw [stripSlashes, List.rdropWhile_concat_pos _ _ _ (by simp), tail_concat]
        exact stripSlashes_last hd (tail q)
      rw [hstrip, if_neg (by simp [tail_concat]), render_eq_tail (by simp)]

theorem plain_init (hpl : ∀ d ∈ a ++ (b ++ [c]), Plain d) : ∀ d ∈ a ++ b, Plain d := by
  rw [← List.append_assoc] at hpl
  exact (List.forall_mem_append.1 hpl).1

theorem parent_render (hpl : ∀ d ∈ p ++ (a ++ (b ++ [c])), Plain d) :
    dirname (render (p ++ (a ++ (b ++ [c])))) = render (p ++ (a ++ b)) := by
  have hsplit : p ++ (a ++ (b ++ [c])) = p ++ (a ++ b) ++ [c] := by simp only [List.append_assoc]
  rw [dirname_render hpl, hsplit, List.dropLast_concat]

theorem join_prefix_length (hab : a <+: b) : (join a).length ≤ (join b).length := by
  obtain ⟨s, rfl⟩ := hab
  by_cases ha : a = []
  · subst ha
    exact Nat.zero_le _
  · have happ : slash :: join (a ++ s) = slash :: join a ++ tail s := by
      rw [slash_join (by simp [ha]), slash_join ha, tail_append]
    have hlen := congrArg List.length happ
    simp only [List.length_cons, List.length_append] at hlen
    omega

theorem not_render_doubled (hne : p ≠ []) (hpl : ∀ d ∈ p, Plain d) (s : List UInt8) :
    ¬ render p <+: slash :: slash :: s := by
  obtain ⟨c, cs, rfl⟩ := List.exists_cons_of_ne_nil hne
  have hc := hpl c List.mem_cons_self
  obtain ⟨x, xs, rfl⟩ := List.exists_cons_of_ne_nil hc.nonempty
  intro hpre
  rw [render_eq_tail hne] at hpre
  have hx : x = slash := (List.cons_prefix_cons.1 (List.cons_prefix_cons.1 hpre).2).1
  exact hc.noSlash (hx ▸ List.mem_cons_self)

end

/-- Where the walk of a path ends: at an object, at the first component that does not
exist with the components after it, or at something that is not a directory. -/
inductive Walk where
  | found (p : Path)
  | missing (p : Path) (rest : List Name)
  | notDir
deriving DecidableEq, Repr

section

variable {ν : Type} (isDir : ν → Bool) (look : Path → Option ν)

def walk : Path → List Name → Walk
  | p, [] => .found p
  | p, c :: cs =>
    if (look p).any isDir then
      if c = dot then walk p cs
      else if c = dotdot then walk p.dropLast cs
      else if (look (p ++ [c])).isSome then walk (p ++ [c]) cs
      else .missing (p ++ [c]) cs
    else .notDir

variable {isDir look} in
theorem walk_append {p q : Path} {cs : List Name} (h : walk isDir look p cs = .found q) (ds : List Name) :
    walk isDir look p (cs ++ ds) = walk isDir look q ds := by
  induction cs generalizing p with
  | nil =>
    cases h
    rfl
  | cons c cs ih =>
    simp only [walk, List.cons_append] at h ⊢
    split_ifs at h ⊢ with hd h1 h2 h3
    · exact ih h
    · exact ih h
    · exact ih h

variable {isDir look} in
theorem walk_concat_dot {p q : Path} {cs : List Name} (h : walk isDir look p (cs ++ [dot]) = .found q) :
    walk isDir look p cs = .found q := by
  induction cs generalizing p with
  | nil =>
    simp only [List.nil_append, walk, if_true] at h ⊢
    split_ifs at h with hd
    exact h
  | cons c cs ih =>
    simp only [walk, List.cons_append] at h ⊢
    split_ifs at h ⊢ with hd h1 h2 h3
    · exact ih h
    · exact ih h
    · exact ih h

section

variable {isDir look} {look' : Path → Option ν}
  (hdir : ∀ q, (look q).any isDir = true → (look' q).any isDir = true)
  (hsome : ∀ q, (look q).isSome = true → (look' q).isSome = true)

include hdir hsome

theorem walk_mono {p q : Path} {cs : List Name} (h : walk isDir look p cs = .found q) :
    walk isDir look' p cs = .found q := by
  induction cs generalizing p with
  | nil => exact h
  | cons c cs ih =>
    simp only [walk] at h ⊢
    split_ifs at h with hd h1 h2 h3
    · rw [if_pos (hdir p hd), if_pos h1]
      exact ih h
    · rw [if_pos (hdir p hd), if_neg h1, if_pos h2]
      exact ih h
    · rw [if_pos (hdir p hd), if_neg h1, if_neg h2, if_pos (hsome _ h3)]
      exact ih h

theorem walk_filled {p q : Path} {cs rest : List Name} (h : walk isDir look p cs = .missing q rest)
    (hq : (look' q).isSome = true) : walk isDir look' p cs = walk isDir look' q rest := by
  induction cs generalizing p with
  | nil => cases h
  | cons c cs ih =>
    simp only [walk] at h ⊢
    split_ifs at h with hd h1 h2 h3
    · rw [if_pos (hdir p hd), if_pos h1]
      exact ih h
    · rw [if_pos (hdir p hd), if_neg h1, if_pos h2]
      exact ih h
    · rw [if_pos (hdir p hd), if_neg h1, if_neg h2, if_pos (hsome _ h3)]
      exact ih h
    · cases h
      rw [if_pos (hdir p hd), if_neg h1, if_neg h2, if_pos hq]

theorem walk_placed {p q : Path} {cs : List Name} (h : walk isDir look p cs = .missing q [])
    (hq : (look' q).isSome = true) : walk isDir look' p cs = .found q :=
  walk_filled hdir hsome h hq

end

variable {isDir look} in
theorem walk_congr {look' : Path → Option ν} (hdir : ∀ q, (look' q).any isDir = (look q).any isDir)
    (hsome : ∀ q, (look' q).isSome = (look q).isSome) (p : Path) (cs : List Name) :
    walk isDir look' p cs = walk isDir look p cs := by
  induction cs generalizing p with
  | nil => rfl
  | cons c cs ih => simp only [walk, hdir, hsome, ih]

variable {isDir look} in
theorem walk_invariant {P : Path → Prop} {p : Path} {cs : List Name} (hp : P p) (hup : ∀ r, P r → P r.dropLast)
    (hdown : ∀ r, ∀ c ∈ cs, P r → (look r).any isDir = true → c ≠ dot → c ≠ dotdot → (look (r ++ [c])).isSome = true →
      P (r ++ [c])) :
    (∀ q, walk isDir look p cs = .found q → P q) ∧
      ∀ q rest, walk isDir look p cs = .missing q rest →
        ∃ r, ∃ c ∈ cs, P r ∧ (look r).any isDir = true ∧ c ≠ dot ∧ c ≠ dotdot ∧ look (r ++ [c]) = none ∧ q = r ++ [c] := by
  induction cs generalizing p with
  | nil =>
    refine ⟨fun q h => ?_, nofun⟩
    cases h
    exact hp
  | cons c cs ih =>
    -- one component on, the rest of the walk keeps it as well
    have hrest : ∀ {p'}, P p' → walk isDir look p (c :: cs) = walk isDir look p' cs →
        (∀ q, walk isDir look p (c :: cs) = .found q → P q) ∧
          ∀ q rest, walk isDir look p (c :: cs) = .missing q rest → ∃ r, ∃ d ∈ c :: cs, P r ∧ (look r).any isDir = true ∧
            d ≠ dot ∧ d ≠ dotdot ∧ look (r ++ [d]) = none ∧ q = r ++ [d] := by
      intro p' hp' heq
      obtain ⟨hfound, hmissing⟩ := ih hp' fun r d hd => hdown r d (List.mem_cons_of_mem c hd)
      rw [heq]
      refine ⟨hfound, fun q rest h => ?_⟩
      obtain ⟨r, d, hd, hat⟩ := hmissing q rest h
      exact ⟨r, d, List.mem_cons_of_mem c hd, hat⟩
    by_cases hd : (look p).any isDir = true
    · by_cases h1 : c = dot
      · exact hrest hp (by rw [walk, if_pos hd, if_pos h1])
      by_cases h2 : c = dotdot
      · exact hrest (hup p hp) (by rw [walk, if_pos hd, if_neg h1, if_pos h2])
      by_cases h3 : (look (p ++ [c])).isSome = true
      · exact hrest (hdown p c List.mem_cons_self hp hd h1 h2 h3) (by rw [walk, if_pos hd, if_neg h1, if_neg h2, if_pos h3])
      · rw [walk, if_pos hd, if_neg h1, if_neg h2, if_neg h3]
        refine ⟨nofun, fun q rest h => ?_⟩
        cases h
        exact ⟨p, c, List.mem_cons_self, hp, hd, h1, h2, Option.not_isSome_iff_eq_none.1 h3, rfl⟩
    · rw [walk, if_neg hd]
      exact ⟨nofun, nofun⟩

variable {isDir look} in
theorem walk_missing {p q : Path} {cs rest : List Name} (h : walk isDir look p cs = .missing q rest) :
    look q = none := by
  obtain ⟨r, c, -, -, -, -, -, hnone, rfl⟩ :=
    (walk_invariant (P := fun _ => True) trivial (fun _ _ => trivial) fun _ _ _ _ _ _ _ _ => trivial).2 q rest h
  exact hnone

/-- Every proper ancestor of the path is a directory. -/
def Reachable (p : Path) : Prop := ∀ q, q <+: p → q ≠ p → (look q).any isDir = true

variable {isDir look}

theorem Reachable.ancestor {p q : Path} (h : Reachable isDir look p) (hq : q <+: p) :
    Reachable isDir look q := by
  intro r hr hne
  refine h r (hr.trans hq) fun heq => hne ?_
  subst heq
  exact hr.eq_of_length (le_antisymm hr.length_le hq.length_le)

theorem walk_plain {p : Path} {cs : List Name} (hplain : ∀ c ∈ cs, Plain c)
    (hdirs : ∀ q, q <+: cs → q ≠ cs → (look (p ++ q)).any isDir = true) :
    walk isDir look p cs =
      if cs = [] ∨ (look (p ++ cs)).isSome then .found (p ++ cs) else .missing (p ++ cs) [] := by
  induction cs generalizing p with
  | nil => simp [walk]
  | cons c cs ih =>
    have hc := hplain c List.mem_cons_self
    have hp : (look p).any isDir = true := by
      simpa using hdirs [] List.nil_prefix (List.cons_ne_nil c cs).symm
    have hrest : ∀ q, q <+: cs → q ≠ cs → (look (p ++ [c] ++ q)).any isDir = true := by
      intro q hq hne
      have := hdirs (c :: q) ((List.cons_prefix_cons).2 ⟨rfl, hq⟩) (by simpa using hne)
      simpa using this
    rw [walk, if_pos hp, if_neg hc.notDot, if_neg hc.notDotdot,
      ih (fun d hd => hplain d (List.mem_cons_of_mem c hd)) hrest]
    simp only [List.append_assoc, List.singleton_append, List.cons_ne_nil, false_or]
    cases cs with
    | nil => simp
    | cons d ds =>
      have hd : (look (p ++ [c])).any isDir = true :=
        hdirs [c] ((List.cons_prefix_cons).2 ⟨rfl, List.nil_prefix⟩) (by simp)
      have hsome : (look (p ++ [c])).isSome = true := by
        cases hl : look (p ++ [c]) with
        | none => rw [hl] at hd; cases hd
        | some n => rfl
      simp only [hsome, if_true, List.cons_ne_nil, false_or]

theorem walk_found_plain {p q : Path} {cs : List Name} (hplain : ∀ c ∈ cs, Plain c)
    (h : walk isDir look p cs = .found q) : q = p ++ cs := by
  induction cs generalizing p with
  | nil =>
    cases h
    exact (List.append_nil q).symm
  | cons c cs ih =>
    have hc := hplain c List.mem_cons_self
    rw [walk] at h
    split_ifs at h with hd h1 h2 h3
    · exact absurd h1 hc.notDot
    · exact absurd h2 hc.notDotdot
    · rw [ih (fun d hd => hplain d (List.mem_cons_of_mem c hd)) h, List.append_assoc, List.singleton_append]

theorem walk_found_some {p q : Path} {cs : List Name} (hplain : ∀ c ∈ cs, Plain c) (hne : cs ≠ [])
    (h : walk isDir look p cs = .found q) : (look q).isSome = true := by
  induction cs generalizing p with
  | nil => exact absurd rfl hne
  | cons c cs ih =>
    have hc := hplain c List.mem_cons_self
    rw [walk] at h
    split_ifs at h with hd h1 h2 h3
    · exact absurd h1 hc.notDot
    · exact absurd h2 hc.notDotdot
    · cases cs with
      | nil =>
        cases h
        exact h3
      | cons d ds => exact ih (fun e he => hplain e (List.mem_cons_of_mem c he)) (List.cons_ne_nil d ds) h

theorem walk_reachable {p : Path} (hplain : ∀ c ∈ p, Plain c) (h : Reachable isDir look p) :
    walk isDir look [] p = if p = [] ∨ (look p).isSome then .found p else .missing p [] := by
  have := walk_plain (p := []) hplain (fun q hq hne => by simpa using h q hq hne)
  simpa using this

/-- A place where a walk can stand. -/
structure Placed (isDir : ν → Bool) (look : Path → Option ν) (p : Path) : Prop where
  plain : ∀ c ∈ p, Plain c
  reach : Reachable isDir look p

theorem placed_nil : Placed isDir look [] := by
  refine ⟨fun c hc => ?_, fun r hr hne => absurd (List.prefix_nil.1 hr) hne⟩
  cases hc

theorem Placed.dropLast {p : Path} (h : Placed isDir look p) : Placed isDir look p.dropLast :=
  ⟨fun c hc => h.plain c (List.dropLast_subset p hc), h.reach.ancestor (List.dropLast_prefix p)⟩

theorem Placed.concat {p : Path} {c : Name} (h : Placed isDir look p) (hdir : (look p).any isDir = true) (hc : Plain c) :
    Placed isDir look (p ++ [c]) := by
  refine ⟨?_, ?_⟩
  · intro d hd
    rcases List.mem_append.1 hd with hd | hd
    · exact h.plain d hd
    · exact List.mem_singleton.1 hd ▸ hc
  · intro q hq hne
    rcases List.prefix_concat_iff.1 hq with heq | hq
    · exact absurd heq hne
    · by_cases heq : q = p
      · exact heq ▸ hdir
      · exact h.reach q hq heq

section

variable {p q : Path} {cs rest : List Name}

theorem walk_found_placed (hp : Placed isDir look p) (hcs : ∀ c ∈ cs, c ≠ [] ∧ slash ∉ c)
    (h : walk isDir look p cs = .found q) : Placed isDir look q := by
  refine (walk_invariant hp (fun r hr => hr.dropLast) ?_).1 q h
  intro r c hc hr hd h1 h2 _
  exact hr.concat hd ⟨(hcs c hc).1, (hcs c hc).2, h1, h2⟩

theorem walk_missing_placed (hp : Placed isDir look p) (hcs : ∀ c ∈ cs, c ≠ [] ∧ slash ∉ c)
    (h : walk isDir look p cs = .missing q rest) : Placed isDir look q ∧ q ≠ [] := by
  have hdown : ∀ r, ∀ c ∈ cs, Placed isDir look r → (look r).any isDir = true → c ≠ dot → c ≠ dotdot →
      Placed isDir look (r ++ [c]) :=
    fun r c hc hr hd h1 h2 => hr.concat hd ⟨(hcs c hc).1, (hcs c hc).2, h1, h2⟩
  obtain ⟨r, c, hc, hr, hd, h1, h2, -, rfl⟩ :=
    (walk_invariant hp (fun r hr => hr.dropLast) fun r c hc hr hd h1 h2 _ => hdown r c hc hr hd h1 h2).2 q rest h
  exact ⟨hdown r c hc hr hd h1 h2, by simp⟩

theorem walk_found_exists (hp : Placed isDir look p) (hcs : ∀ c ∈ cs, c ≠ [] ∧ slash ∉ c) (hsome : (look p).isSome = true)
    (h : walk isDir look p cs = .found q) : (look q).isSome = true := by
  refine ((walk_invariant (P := fun r => Placed isDir look r ∧ (look r).isSome = true) ⟨hp, hsome⟩ ?_ ?_).1 q h).2
  · rintro r ⟨hr, hrsome⟩
    refine ⟨hr.dropLast, ?_⟩
    by_cases hne : r.dropLast = r
    · rw [hne]
      exact hrsome
    · have hdir := hr.reach _ (List.dropLast_prefix r) hne
      obtain ⟨n, hn, -⟩ := (Option.any_eq_true _ _).1 hdir
      rw [hn]
      rfl
  · rintro r c hc ⟨hr, -⟩ hd h1 h2 h3
    exact ⟨hr.concat hd ⟨(hcs c hc).1, (hcs c hc).2, h1, h2⟩, h3⟩

variable {look' : Path → Option ν} (hdir : ∀ q, (look q).any isDir = true → (look' q).any isDir = true)

include hdir

theorem walk_kept (hq : (look' q).isSome = true) (h : walk isDir look p cs = .found q) : walk isDir look' p cs = .found q := by
  induction cs generalizing p with
  | nil => exact h
  | cons c cs ih =>
    rw [walk] at h ⊢
    split_ifs at h with hd h1 h2 h3
    · rw [if_pos (hdir p hd), if_pos h1]
      exact ih h
    · rw [if_pos (hdir p hd), if_neg h1, if_pos h2]
      exact ih h
    · have hnext : (look' (p ++ [c])).isSome = true := by
        cases cs with
        | nil =>
          cases h
          exact hq
        | cons d ds =>
          rw [walk] at h
          split_ifs at h with hd'
          all_goals
            obtain ⟨n, hn, -⟩ := (Option.any_eq_true _ _).1 (hdir _ hd')
            rw [hn]
            rfl
      rw [if_pos (hdir p hd), if_neg h1, if_neg h2, if_pos hnext]
      exact ih h

end

/-- Where one component leads when everything on the way is there. -/
def follow1 (p : Path) (c : Name) : Path := if c = dot then p else if c = dotdot then p.dropLast else p ++ [c]

def follow (p : Path) (cs : List Name) : Path := cs.foldl follow1 p

/-- Neither of two places is above the other. -/
def Beside (p q : Path) : Prop := ¬ p <+: q ∧ ¬ q <+: p

theorem follow_cons (p : Path) (c : Name) (cs : List Name) : follow p (c :: cs) = follow (follow1 p c) cs := rfl

theorem follow_plain (p : Path) {cs : List Name} (h : ∀ c ∈ cs, Plain c) : follow p cs = p ++ cs := by
  induction cs generalizing p with
  | nil => exact (List.append_nil p).symm
  | cons c cs ih =>
    have hc := h c List.mem_cons_self
    rw [follow_cons, follow1, if_neg hc.notDot, if_neg hc.notDotdot, ih _ fun d hd => h d (List.mem_cons_of_mem c hd),
      List.append_assoc, List.singleton_append]

theorem follow_mem_plain {p : Path} {cs : List Name} (hp : ∀ c ∈ p, Plain c) (hcs : ∀ c ∈ cs, c ≠ [] ∧ slash ∉ c) :
    ∀ c ∈ follow p cs, Plain c := by
  induction cs generalizing p with
  | nil => exact hp
  | cons d ds ih =>
    rw [follow_cons]
    refine ih ?_ fun c hc => hcs c (List.mem_cons_of_mem d hc)
    obtain ⟨hne, hslash⟩ := hcs d List.mem_cons_self
    rw [follow1]
    split_ifs with hdot hdotdot
    · exact hp
    · exact fun c hc => hp c (List.dropLast_subset p hc)
    · intro c hc
      rcases List.mem_append.1 hc with hc | hc
      · exact hp c hc
      · rw [List.mem_singleton.1 hc]
        exact ⟨hne, hslash, hdot, hdotdot⟩

section

variable {p q : Path} {cs rest : List Name}

theorem walk_missing_follow (h : walk isDir look p cs = .missing q rest) :
    ∃ ds c, cs = ds ++ c :: rest ∧ c ≠ dot ∧ c ≠ dotdot ∧ q = follow p (ds ++ [c]) ∧
      ∀ es, es <+: ds → (look (follow p es)).any isDir = true := by
  induction cs generalizing p with
  | nil => cases h
  | cons c cs ih =>
    have hcons : ∀ p', follow1 p c = p' → (look p).any isDir = true → walk isDir look p' cs = .missing q rest →
        ∃ ds d, c :: cs = ds ++ d :: rest ∧ d ≠ dot ∧ d ≠ dotdot ∧ q = follow p (ds ++ [d]) ∧
          ∀ es, es <+: ds → (look (follow p es)).any isDir = true := by
      rintro p' rfl hd hrest
      obtain ⟨ds, d, rfl, hdot, hdotdot, hq, hdirs⟩ := ih hrest
      refine ⟨c :: ds, d, rfl, hdot, hdotdot, hq, fun es hes => ?_⟩
      cases es with
      | nil => exact hd
      | cons e es =>
        obtain ⟨rfl, hes'⟩ := List.cons_prefix_cons.1 hes
        exact hdirs es hes'
    rw [walk] at h
    split_ifs at h with hd h1 h2 h3
    · exact hcons p (if_pos h1) hd h
    · exact hcons _ (by rw [follow1, if_neg h1, if_pos h2]) hd h
    · exact hcons _ (by rw [follow1, if_neg h1, if_neg h2]) hd h
    · cases h
      refine ⟨[], c, rfl, h1, h2, by rw [List.nil_append, follow_cons, follow1, if_neg h1, if_neg h2]; rfl, fun es hes => ?_⟩
      rw [List.prefix_nil.1 hes]
      exact hd

theorem walk_missing_end (h : walk isDir look p cs = .missing q []) : q = follow p cs := by
  obtain ⟨ds, c, rfl, -, -, rfl, -⟩ := walk_missing_follow h
  rfl

theorem walk_missing_trailing {trail : Prop} [Decidable trail]
    (h : walk isDir look p (cs ++ if trail then [dot] else []) = .missing q []) : q = follow p cs := by
  obtain ⟨ds, c, hcs, hdot, -, rfl, -⟩ := walk_missing_follow h
  split_ifs at hcs
  · exact absurd (List.append_inj_right' hcs rfl) (by simpa using Ne.symm hdot)
  · rw [← hcs, List.append_nil]

theorem walk_missing_last (hpl : ∀ c ∈ cs, Plain c) (h : walk isDir look p cs = .missing q []) : q = p ++ cs := by
  rw [walk_missing_end h, follow_plain p hpl]

end

end

end Paths
