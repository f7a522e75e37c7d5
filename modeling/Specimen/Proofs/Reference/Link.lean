import Mathlib.Data.List.Chain
import Mathlib.Logic.Relation
import Specimen.Reference.Cycle

/-!
# Links between interfaces

The graph that generation follows: there is a link from an interface to every other declared
interface that its fields mention. `Index.IsCycle` describes a cycle of this graph as a list of
names from one name to the same name again, and `Index.Entangled` says that two different
interfaces are mutually reachable below a root. A root below which nothing is entangled has no
closed walk (`not_transGen_self`).
-/

namespace Specimen.Index

variable {index : Index}

/-- The name is declared as an interface. -/
def IsInterface (index : Index) (name : String) : Prop :=
  (index.interfaceFields? name).isSome

/-- A field of the interface mentions the name. -/
def Mentions (index : Index) (name target : String) : Prop :=
  ∃ fields, index.interfaceFields? name = some fields
    ∧ ∃ field ∈ fields, target ∈ field.type.mentions

/-- The interface mentions another interface. -/
structure Leads (index : Index) (name target : String) : Prop where
  mentions : index.Mentions name target
  declared : index.IsInterface target
  other : target ≠ name

/-- The target can be reached along links, in no step at all or in several. -/
def Reaches (index : Index) : String → String → Prop :=
  Relation.ReflTransGen index.Leads

/-- Two different interfaces below the root reach each other. -/
def Entangled (index : Index) (root : String) : Prop :=
  ∃ a b, a ≠ b ∧ index.Reaches root a ∧ index.Reaches a b ∧ index.Reaches b a

/-- A cycle through at least two interfaces, from one of them to the same one again. -/
structure IsCycle (index : Index) (names : List String) : Prop where
  three_le : 3 ≤ names.length
  closed : names.getLast? = names.head?
  nodup : names.dropLast.Nodup
  declared : ∀ name ∈ names.dropLast, index.IsInterface name
  linked : names.IsChain index.Leads

theorem Leads.isInterface {a b : String} (h : index.Leads a b) : index.IsInterface a := by
  obtain ⟨fields, hfields, -⟩ := h.mentions
  simp [IsInterface, hfields]

/-- A walk that leaves a name starts at an interface. -/
theorem isInterface_of_reaches {a b : String} (hreach : index.Reaches a b) (hne : a ≠ b) :
    index.IsInterface a := by
  rcases Relation.ReflTransGen.cases_head hreach with heq | ⟨c, hlink, -⟩
  · exact absurd heq hne
  · exact hlink.isInterface

/-- Two different names that reach each other lie on a closed walk. -/
theorem transGen_self_of_reaches {a b : String} (hne : a ≠ b)
    (hab : index.Reaches a b) (hba : index.Reaches b a) :
    Relation.TransGen index.Leads a a := by
  rcases Relation.reflTransGen_iff_eq_or_transGen.mp hab with heq | hab
  · exact absurd heq.symm hne
  · exact Relation.TransGen.trans_left hab hba

/-- Below a root without entangled interfaces no walk comes back. -/
theorem not_transGen_self {root a : String} (hfree : ¬ index.Entangled root)
    (hreach : index.Reaches root a) : ¬ Relation.TransGen index.Leads a a := by
  intro hwalk
  obtain ⟨b, hlink, hback⟩ := Relation.TransGen.head'_iff.mp hwalk
  exact hfree ⟨a, b, hlink.other.symm, hreach, .single hlink, hback⟩

/-- The first two names of a cycle reach each other. -/
theorem IsCycle.entangled {root : String} {names : List String} (hcycle : index.IsCycle names)
    (hreach : ∀ first ∈ names.head?, index.Reaches root first) : index.Entangled root := by
  obtain ⟨hlength, hclosed, -, -, hlinked⟩ := hcycle
  match names, hlength with
  | a :: b :: rest, _ =>
      rw [List.isChain_cons_cons] at hlinked
      obtain ⟨hfirst, hlinked⟩ := hlinked
      have hlast : (b :: rest).getLast (List.cons_ne_nil b rest) = a := by
        have := hclosed
        rw [List.getLast?_cons_cons, List.getLast?_eq_some_getLast (List.cons_ne_nil b rest)]
          at this
        simpa using this
      have hback : index.Reaches b a :=
        List.relationReflTransGen_of_exists_isChain_cons rest hlinked hlast
      exact ⟨a, b, hfirst.other.symm, hreach a rfl, .single hfirst, hback⟩

/-! ## Successors -/

theorem mem_successors?_iff {a b : String} {targets : List String}
    (h : index.successors? a = some targets) :
    b ∈ targets ↔ index.Mentions a b ∧ b ≠ a := by
  simp only [successors?, Option.map_eq_some_iff] at h
  obtain ⟨fields, hfields, rfl⟩ := h
  simp [Mentions, hfields]

theorem isSome_successors?_iff {name : String} :
    (index.successors? name).isSome ↔ index.IsInterface name := by
  simp [successors?, IsInterface]

theorem leads_iff {a b : String} {targets : List String}
    (h : index.successors? a = some targets) :
    index.Leads a b ↔ b ∈ targets ∧ index.IsInterface b := by
  rw [mem_successors?_iff h]
  constructor
  · intro hlink
    exact ⟨⟨hlink.mentions, hlink.other⟩, hlink.declared⟩
  · rintro ⟨⟨hmentions, hother⟩, hdeclared⟩
    exact ⟨hmentions, hdeclared, hother⟩

end Specimen.Index
