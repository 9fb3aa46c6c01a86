import Famfs.Spec.Yaml

/-! Well-nested documents, as the events that libyaml delivers for them. From each place of such a
document on, as many sequences end as start, and those that are open there. -/

namespace Famfs

inductive YamlNodes : List YamlEvent → Prop where
  | nil : YamlNodes []
  | scalar (value : CStr) {rest : List YamlEvent} (hrest : YamlNodes rest) : YamlNodes (.scalar value :: rest)
  | reference {rest : List YamlEvent} (hrest : YamlNodes rest) : YamlNodes (.alias :: rest)
  | sequence {inner rest : List YamlEvent} (hinner : YamlNodes inner) (hrest : YamlNodes rest) :
      YamlNodes (.sequenceStart :: (inner ++ .sequenceEnd :: rest))
  | mapping {inner rest : List YamlEvent} (hinner : YamlNodes inner) (hrest : YamlNodes rest) :
      YamlNodes (.mappingStart :: (inner ++ .mappingEnd :: rest))

def yamlDocument (nodes : List YamlEvent) : List YamlEvent :=
  .streamStart :: .documentStart :: (nodes ++ [.documentEnd, .streamEnd])

def YamlDocument (events : List YamlEvent) : Prop := ∃ nodes, YamlNodes nodes ∧ events = yamlDocument nodes

def yamlScalars (values : List String) : List YamlEvent := values.map fun value => .scalar (lit value)

def yamlSequence (inner : List YamlEvent) : List YamlEvent := .sequenceStart :: (inner ++ [.sequenceEnd])

def yamlMapping (inner : List YamlEvent) : List YamlEvent := .mappingStart :: (inner ++ [.mappingEnd])

theorem YamlNodes.append {nodes rest : List YamlEvent} (h : YamlNodes nodes) (hrest : YamlNodes rest) :
    YamlNodes (nodes ++ rest) := by
  induction h with
  | nil => exact hrest
  | scalar value _ ih => exact .scalar value ih
  | reference _ ih => exact .reference ih
  | sequence hinner _ _ ih =>
    rw [List.cons_append, List.append_assoc, List.cons_append]
    exact .sequence hinner ih
  | mapping hinner _ _ ih =>
    rw [List.cons_append, List.append_assoc, List.cons_append]
    exact .mapping hinner ih

theorem yamlScalars_nodes (values : List String) : YamlNodes (yamlScalars values) := by
  induction values with
  | nil => exact .nil
  | cons value values ih => exact .scalar (lit value) ih

theorem yamlSequence_nodes {inner : List YamlEvent} (h : YamlNodes inner) : YamlNodes (yamlSequence inner) :=
  .sequence h .nil

theorem yamlMapping_nodes {inner : List YamlEvent} (h : YamlNodes inner) : YamlNodes (yamlMapping inner) :=
  .mapping h .nil

/-- From each place on, no more sequences start than end. -/
def SequencesEnd : List YamlEvent → Prop
  | [] => True
  | event :: rest =>
    (event :: rest).count .sequenceStart ≤ (event :: rest).count .sequenceEnd ∧ SequencesEnd rest

theorem SequencesEnd.count {events : List YamlEvent} (h : SequencesEnd events) :
    events.count .sequenceStart ≤ events.count .sequenceEnd := by
  cases events with
  | nil => exact le_rfl
  | cons event rest => exact h.1

theorem SequencesEnd.suffix {events later : List YamlEvent} (h : SequencesEnd events) (hlater : later <:+ events) :
    SequencesEnd later := by
  induction events with
  | nil =>
    rw [List.suffix_nil.1 hlater]
    trivial
  | cons event rest ih =>
    rcases List.suffix_cons_iff.1 hlater with rfl | hrest
    · exact h
    · exact ih h.2 hrest

theorem YamlNodes.count_eq {nodes : List YamlEvent} (h : YamlNodes nodes) :
    nodes.count .sequenceStart = nodes.count .sequenceEnd := by
  induction h with
  | nil => rfl
  | scalar value _ ih => simpa [List.count_cons] using ih
  | reference _ ih => simpa [List.count_cons] using ih
  | sequence _ _ ih ih' =>
    simp only [List.count_cons, List.count_append, beq_self_eq_true, reduceCtorEq, beq_iff_eq, if_true, if_false]
    omega
  | mapping _ _ ih ih' =>
    simp only [List.count_cons, List.count_append, reduceCtorEq, beq_iff_eq, if_false]
    omega

theorem YamlNodes.sequencesEnd {nodes : List YamlEvent} (h : YamlNodes nodes) {rest : List YamlEvent}
    (hrest : SequencesEnd rest) : SequencesEnd (nodes ++ rest) := by
  induction h generalizing rest with
  | nil => exact hrest
  | scalar value _ ih =>
    have hlater := ih hrest
    exact ⟨by simpa [List.count_cons] using hlater.count, hlater⟩
  | reference _ ih =>
    have hlater := ih hrest
    exact ⟨by simpa [List.count_cons] using hlater.count, hlater⟩
  | @sequence inner nodes hinner hnodes ih ih' =>
    have hlater := ih' hrest
    have hend : SequencesEnd (.sequenceEnd :: (nodes ++ rest)) := by
      refine ⟨?_, hlater⟩
      have hcount := hlater.count
      simp only [List.count_cons, beq_self_eq_true, reduceCtorEq, beq_iff_eq, if_true, if_false]
      omega
    have hall := ih hend
    rw [List.cons_append, List.append_assoc, List.cons_append]
    refine ⟨?_, hall⟩
    have hcount := hlater.count
    have hinner := hinner.count_eq
    simp only [List.count_cons, List.count_append, beq_self_eq_true, reduceCtorEq, beq_iff_eq, if_true,
      if_false] at hcount ⊢
    omega
  | @mapping inner nodes _ _ ih ih' =>
    have hlater := ih' hrest
    have hall := ih (show SequencesEnd (.mappingEnd :: (nodes ++ rest)) from
      ⟨by simpa [List.count_cons] using hlater.count, hlater⟩)
    rw [List.cons_append, List.append_assoc, List.cons_append]
    exact ⟨by simpa [List.count_cons] using hall.count, hall⟩

theorem YamlDocument.sequencesEnd {events : List YamlEvent} (h : YamlDocument events) : SequencesEnd events := by
  obtain ⟨nodes, hnodes, rfl⟩ := h
  have hrest : SequencesEnd (nodes ++ [.documentEnd, .streamEnd]) := hnodes.sequencesEnd ⟨by decide, by decide, trivial⟩
  have hcount := hrest.count
  exact ⟨by simpa [List.count_cons] using hcount, by simpa [List.count_cons] using hcount, hrest⟩

end Famfs
