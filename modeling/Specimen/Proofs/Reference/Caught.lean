import Specimen.Proofs.Declaration.Index
import Specimen.Proofs.Reference.Removal
import Specimen.Reference.Report

/-!
# The caught declarations of a report

The graph of a report has an edge from a declared name to every other declared name that a field or
the target of an alias mentions (`Index.PointsAt`). The report lists the names that lie on a cycle
of this graph or that a cycle leads to, in ascending order, and lists nothing exactly if the graph
has no cycle. Main statement: `Index.referenceReport_cycle_exact`.
-/

namespace Specimen.Index

variable {index : Index}

/-- A field of the declared name, or its target if it is an alias, mentions another declared
name. -/
structure PointsAt (index : Index) (name target : String) : Prop where
  mentions : ∃ declaration, index.find? name = some declaration
    ∧ ∃ part ∈ declaration.parts, target ∈ part.2.mentions
  declared : index.contains target = true
  other : target ≠ name

/-! ## The graph of a report -/

theorem nodup_eraseDups (names : List String) : names.eraseDups.Nodup := by
  induction hlength : names.length using Nat.strong_induction_on generalizing names with
  | h n ih =>
      cases names with
      | nil => exact List.nodup_nil
      | cons name rest =>
          rw [List.eraseDups_cons]
          refine List.nodup_cons.mpr ⟨?_, ih _ ?_ _ rfl⟩
          · simp
          · have := List.length_filter_le (fun other => !other == name) rest
            simp only [List.length_cons] at hlength
            omega

theorem mem_targets_iff {declaration : Declaration} {target : String} :
    target ∈ index.targets declaration ↔
      (∃ part ∈ declaration.parts, target ∈ part.2.mentions)
        ∧ target ≠ declaration.name ∧ index.contains target = true := by
  simp [targets, Declaration.mentions]

theorem mem_referenceGraph_iff (hnamed : index.IsNamed) (hnodup : index.names.Nodup)
    {name : String} {targets : List String} :
    (name, targets) ∈ index.referenceGraph ↔
      ∃ declaration, index.find? name = some declaration
        ∧ targets = index.targets declaration := by
  simp only [referenceGraph, List.mem_map, mem_declarations_iff hnamed hnodup, Prod.mk.injEq]
  constructor
  · rintro ⟨declaration, hfind, rfl, rfl⟩
    exact ⟨declaration, hfind, rfl⟩
  · rintro ⟨declaration, hfind, rfl⟩
    have hname := hnamed name declaration hfind
    exact ⟨declaration, hname.symm ▸ hfind, hname, rfl⟩

theorem names_referenceGraph (hnamed : index.IsNamed) (hnodup : index.names.Nodup) :
    Entries.names index.referenceGraph = index.names := by
  rw [← map_name_declarations hnamed hnodup, referenceGraph, Entries.names, List.map_map]
  rfl

theorem isSimple_referenceGraph (hnamed : index.IsNamed) (hnodup : index.names.Nodup) :
    index.referenceGraph.IsSimple := by
  refine ⟨?_, ?_, ?_⟩
  · rw [names_referenceGraph hnamed hnodup]
    exact hnodup
  · rintro ⟨name, targets⟩ hnode
    obtain ⟨declaration, -, rfl⟩ := (mem_referenceGraph_iff hnamed hnodup).mp hnode
    exact nodup_eraseDups _
  · rintro ⟨name, targets⟩ hnode target htarget
    obtain ⟨declaration, -, rfl⟩ := (mem_referenceGraph_iff hnamed hnodup).mp hnode
    rw [names_referenceGraph hnamed hnodup, ← contains_iff]
    exact (mem_targets_iff.mp htarget).2.2

theorem points_referenceGraph_iff (hnamed : index.IsNamed) (hnodup : index.names.Nodup)
    {name target : String} :
    index.referenceGraph.Points name target ↔ index.PointsAt name target := by
  constructor
  · rintro ⟨targets, hnode, htarget⟩
    obtain ⟨declaration, hfind, rfl⟩ := (mem_referenceGraph_iff hnamed hnodup).mp hnode
    obtain ⟨hmentions, hother, hdeclared⟩ := mem_targets_iff.mp htarget
    exact ⟨⟨declaration, hfind, hmentions⟩, hdeclared, hnamed name declaration hfind ▸ hother⟩
  · rintro ⟨⟨declaration, hfind, hmentions⟩, hdeclared, hother⟩
    refine ⟨_, (mem_referenceGraph_iff hnamed hnodup).mpr ⟨declaration, hfind, rfl⟩, ?_⟩
    exact mem_targets_iff.mpr ⟨hmentions, (hnamed name declaration hfind).symm ▸ hother, hdeclared⟩

/-! ## The answer -/

/-- The report of an index has no cycle exactly if no name can be reached from itself. Otherwise it
lists in ascending order the names that lie on a cycle or can be reached from one. -/
theorem referenceReport_cycle_exact (declarations : List Declaration) :
    let index := Index.ofList declarations
    (index.referenceReport.cycle = none
        ↔ ∀ name, ¬ Relation.TransGen index.PointsAt name name)
      ∧ ∀ names, index.referenceReport.cycle = some names →
          Ascending names
            ∧ ∀ name, name ∈ names ↔ ∃ start, Relation.TransGen index.PointsAt start start
                ∧ Relation.ReflTransGen index.PointsAt start name := by
  intro index
  have hnamed : index.IsNamed := isNamed_ofList declarations
  have hascending : Ascending index.names := ascending_ofList declarations
  have hpoints : index.referenceGraph.Points = index.PointsAt := by
    funext name target
    exact propext (points_referenceGraph_iff hnamed hascending.nodup)
  have hspec := Graph.caught?_spec (isSimple_referenceGraph hnamed hascending.nodup)
  simp only [Graph.IsCaught, hpoints, names_referenceGraph hnamed hascending.nodup] at hspec
  obtain ⟨hnone, hsome⟩ := hspec
  constructor
  · refine hnone.trans ⟨?_, ?_⟩
    · intro hfree name hcycle
      exact hfree name ⟨name, hcycle, .refl⟩
    · rintro hacyclic name ⟨start, hcycle, -⟩
      exact hacyclic start hcycle
  · intro names hnames
    obtain ⟨hsublist, hmem⟩ := hsome names hnames
    exact ⟨hascending.sublist hsublist, hmem⟩

end Specimen.Index
