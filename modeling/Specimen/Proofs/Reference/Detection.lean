import Mathlib
import Specimen.Proofs.Reference.Caught
import Specimen.Proofs.Reference.Search

/-!
# The search and the report agree

A cycle is found in two ways: by the search below a root, which follows the links between
interfaces, and by the report on the whole index, which takes nodes away. A link is an edge of the
report, so a cycle that is found below a root is caught. The other way round the two differ by
aliases only: on a closed walk of the report every name points at another one, so without aliases
every name on it is an interface, and the walk follows links. Main statement:
`cycle_agrees_with_reachableCycle?`.
-/

namespace Specimen.Index

variable {index : Index} {a b : String}

/-- No declaration is an alias. -/
def IsAliasFree (index : Index) : Prop :=
  ∀ name declaration, index.find? name = some declaration →
    ∀ target, declaration.body ≠ .alias target

/-! ## Links and edges -/

theorem IsInterface.contains (h : index.IsInterface a) : index.contains a = true := by
  obtain ⟨fields, hfields⟩ := Option.isSome_iff_exists.mp h
  exact contains_iff.mpr (mem_names_of_interfaceFields? hfields)

/-- A link between interfaces is an edge of the report. -/
theorem Leads.pointsAt (h : index.Leads a b) : index.PointsAt a b := by
  obtain ⟨⟨fields, hfields, field, hfield, hmention⟩, hinterface, hother⟩ := h
  obtain ⟨declaration, hfind, hbody⟩ := interfaceFields?_eq_some_iff.mp hfields
  refine ⟨⟨declaration, hfind, (some field.name, field.type), ?_, hmention⟩,
    hinterface.contains, hother⟩
  simp only [Declaration.parts, hbody]
  exact List.mem_map_of_mem hfield

/-- Without aliases only the fields of interfaces mention anything. -/
theorem PointsAt.mentions_of_aliasFree (hfree : index.IsAliasFree) (h : index.PointsAt a b) :
    index.Mentions a b := by
  obtain ⟨⟨declaration, hfind, part, hpart, hmention⟩, -, -⟩ := h
  cases hbody : declaration.body with
  | interface fields =>
      simp only [Declaration.parts, hbody, List.mem_map] at hpart
      obtain ⟨field, hfield, rfl⟩ := hpart
      exact ⟨fields, interfaceFields?_eq_some_iff.mpr ⟨declaration, hfind, hbody⟩, field, hfield,
        hmention⟩
  | «alias» target => exact absurd hbody (hfree a declaration hfind target)
  | enumeration members => simp [Declaration.parts, hbody] at hpart
  | «namespace» => simp [Declaration.parts, hbody] at hpart

/-- Without aliases a walk along edges that ends at an interface follows links: every name on it but
the last one mentions the next one. -/
theorem transGen_leads_of_pointsAt (hfree : index.IsAliasFree)
    (hwalk : Relation.TransGen index.PointsAt a b) (hlast : index.IsInterface b) :
    Relation.TransGen index.Leads a b := by
  induction hwalk with
  | single hpoints =>
      exact .single ⟨hpoints.mentions_of_aliasFree hfree, hlast, hpoints.other⟩
  | tail _ hpoints ih =>
      have hlink : index.Leads _ _ :=
        ⟨hpoints.mentions_of_aliasFree hfree, hlast, hpoints.other⟩
      exact (ih hlink.isInterface).tail hlink

/-! ## Cycles -/

/-- Where two names stand in a chain one after the other, the second one can be reached. -/
theorem reaches_of_isChain {names : List String} (hchain : names.IsChain index.Leads)
    {first last : String} (hfirst : names.head? = some first)
    (hlast : names.getLast? = some last) : index.Reaches first last := by
  have hne : names ≠ [] := by
    rintro rfl
    cases hfirst
  have hreach := List.relationReflTransGen_of_exists_isChain names hchain hne
  rw [List.head?_eq_some_head hne, Option.some.injEq] at hfirst
  rw [List.getLast?_eq_some_getLast hne, Option.some.injEq] at hlast
  exact hlast ▸ hfirst ▸ hreach

/-- From every name of a cycle there is a walk back to it. -/
theorem IsCycle.transGen_self {names : List String} (hcycle : index.IsCycle names) {name : String}
    (hname : name ∈ names) : Relation.TransGen index.Leads name name := by
  obtain ⟨a, b, rest, rfl⟩ : ∃ a b rest, names = a :: b :: rest := by
    match names, hcycle.three_le with
    | a :: b :: rest, _ => exact ⟨a, b, rest, rfl⟩
  obtain ⟨hlink, hchain⟩ := List.isChain_cons_cons.mp hcycle.linked
  have hclosed : (b :: rest).getLast? = some a := by
    rw [← List.getLast?_cons_cons]
    exact hcycle.closed
  have haround : Relation.TransGen index.Leads a a :=
    .head' hlink (reaches_of_isChain hchain rfl hclosed)
  -- the name cuts the cycle into a walk to it and a walk from it
  obtain ⟨before, after, hsplit⟩ := List.append_of_mem hname
  have hto : index.Reaches a name := by
    have hpart : (before ++ [name]) ++ after = a :: b :: rest := by simp [hsplit]
    refine reaches_of_isChain (List.IsChain.left_of_append (hpart ▸ hcycle.linked)) ?_ (by simp)
    cases before with
    | nil => simpa using (List.cons.inj hsplit).1.symm
    | cons first before => simpa using (List.cons.inj hsplit).1.symm
  have hfrom : index.Reaches name a := by
    have hpart : (name :: after) <:+ (a :: b :: rest) := ⟨before, hsplit.symm⟩
    refine reaches_of_isChain (hcycle.linked.suffix hpart) rfl ?_
    have hlast := hcycle.closed
    rwa [hsplit, List.getLast?_append_of_ne_nil _ (List.cons_ne_nil name after), ← hsplit] at hlast
  exact .trans_right hfrom (.trans_left haround hto)

/-! ## The two answers -/

section Report

variable {declarations : List Declaration}

/-- The report lists the nodes of its graph that are caught, if there are any. -/
theorem referenceReport_cycle_spec (declarations : List Declaration) :
    ((Index.ofList declarations).referenceReport.cycle = none
        ↔ ∀ name, ¬ (Index.ofList declarations).referenceGraph.IsCaught name)
      ∧ ∀ names, (Index.ofList declarations).referenceReport.cycle = some names →
          ∀ name, name ∈ names ↔ (Index.ofList declarations).referenceGraph.IsCaught name := by
  have hsimple := isSimple_referenceGraph (isNamed_ofList declarations)
    (ascending_ofList declarations).nodup
  obtain ⟨hnone, hsome⟩ := Graph.caught?_spec hsimple
  exact ⟨hnone, fun names hnames => (hsome names hnames).2⟩

theorem points_ofList_iff :
    (Index.ofList declarations).referenceGraph.Points a b
      ↔ (Index.ofList declarations).PointsAt a b :=
  points_referenceGraph_iff (isNamed_ofList declarations) (ascending_ofList declarations).nodup

/-- A name that links lead around to is caught. -/
theorem isCaught_of_transGen_leads {name : String}
    (hwalk : Relation.TransGen (Index.ofList declarations).Leads name name) :
    (Index.ofList declarations).referenceGraph.IsCaught name :=
  ⟨name, Relation.TransGen.mono (fun _ _ hlink => points_ofList_iff.mpr hlink.pointsAt) _ _ hwalk,
    .refl⟩

/-- Without aliases something is caught only if the search below some declared name
finds a cycle. -/
theorem exists_reachableCycle?_of_isCaught (hfree : (Index.ofList declarations).IsAliasFree)
    {name : String} (h : (Index.ofList declarations).referenceGraph.IsCaught name) :
    ∃ root, (Index.ofList declarations).contains root = true
      ∧ (Index.ofList declarations).reachableCycle? root ≠ none := by
  obtain ⟨root, hwalk, -⟩ := h
  have hpoints : Relation.TransGen (Index.ofList declarations).PointsAt root root :=
    Relation.TransGen.mono (fun _ _ => points_ofList_iff.mp) _ _ hwalk
  obtain ⟨next, hfirst, -⟩ := Relation.TransGen.head'_iff.mp hpoints
  obtain ⟨fields, hfields, -⟩ := hfirst.mentions_of_aliasFree hfree
  have hroot : (Index.ofList declarations).IsInterface root := by
    rw [IsInterface, hfields]
    rfl
  refine ⟨root, hroot.contains, fun hnone => ?_⟩
  exact not_transGen_self (not_entangled_of_reachableCycle? hnone) .refl
    (transGen_leads_of_pointsAt hfree hpoints hroot)

/-- What the search finds below a root is in the cycle of the report, and where no declaration is an
alias the report has a cycle only if the search finds one below a declared name. -/
theorem cycle_agrees_with_reachableCycle? (declarations : List Declaration) :
    let index := Index.ofList declarations
    (∀ root cycle, index.reachableCycle? root = some cycle →
        ∃ names, index.referenceReport.cycle = some names ∧ cycle ⊆ names)
      ∧ (index.IsAliasFree →
        (index.referenceReport.cycle = none
          ↔ ∀ name, index.contains name = true → index.reachableCycle? name = none)) := by
  intro index
  obtain ⟨hnone, hsome⟩ := referenceReport_cycle_spec declarations
  have hfound : ∀ root cycle, index.reachableCycle? root = some cycle →
      ∃ names, index.referenceReport.cycle = some names ∧ cycle ⊆ names := by
    intro root cycle hcycle
    obtain ⟨hcycle, -⟩ := isCycle_of_reachableCycle? hcycle
    have hcaught : ∀ name ∈ cycle, index.referenceGraph.IsCaught name :=
      fun name hname => isCaught_of_transGen_leads (hcycle.transGen_self hname)
    cases hreport : index.referenceReport.cycle with
    | none =>
        obtain ⟨first, hfirst⟩ : ∃ first, first ∈ cycle :=
          List.exists_mem_of_length_pos (Nat.lt_of_lt_of_le (by decide) hcycle.three_le)
        exact absurd (hcaught first hfirst) (hnone.mp hreport first)
    | some names =>
        exact ⟨names, rfl, fun name hname => (hsome names hreport name).mpr (hcaught name hname)⟩
  refine ⟨hfound, fun hfree => ⟨?_, ?_⟩⟩
  · intro hreport name _
    cases hcycle : index.reachableCycle? name with
    | none => rfl
    | some cycle =>
        obtain ⟨names, hnames, -⟩ := hfound name cycle hcycle
        rw [hreport] at hnames
        cases hnames
  · intro hall
    refine hnone.mpr fun name hcaught => ?_
    obtain ⟨root, hroot, hcycle⟩ := exists_reachableCycle?_of_isCaught hfree hcaught
    exact hcycle (hall root hroot)

/-- A visit to a pet is behind the cycle of pets and owners, an owner is on it. -/
theorem cycle_agrees_with_reachableCycle?_owner :
    let declarations : List Declaration :=
      [⟨"Visit", .interface [⟨"pet", .named "Pet", false⟩]⟩,
        ⟨"Pet", .interface [⟨"kind", .named "Kind", false⟩, ⟨"owner", .named "Owner", false⟩]⟩,
        ⟨"Kind", .enumeration [⟨"Cat", none⟩, ⟨"Dog", none⟩]⟩,
        ⟨"Owner", .interface [⟨"pets", .arrayOf (.named "Pet"), false⟩]⟩]
    let index := Index.ofList declarations
    index.IsAliasFree ∧ index.reachableCycle? "Visit" = some ["Pet", "Owner", "Pet"]
      ∧ (∃ names, index.referenceReport.cycle = some names ∧ ["Pet", "Owner", "Pet"] ⊆ names)
      ∧ ¬ ∀ name, index.contains name = true → index.reachableCycle? name = none := by
  intro declarations index
  have hcycle : index.reachableCycle? "Visit" = some ["Pet", "Owner", "Pet"] := by cbv
  have hbodies : ∀ entry ∈ index.entries, ∀ target, entry.2.body ≠ .alias target := by
    have hentries : index.entries.map (fun entry => entry.2.kindLabel)
        = ["enum", "interface", "interface", "interface"] := by cbv
    intro entry hentry target hbody
    have hlabel := List.mem_map_of_mem (f := fun entry : String × Declaration =>
      entry.2.kindLabel) hentry
    rw [hentries] at hlabel
    simp [Declaration.kindLabel, hbody] at hlabel
  have hfree : index.IsAliasFree := fun name declaration hfind =>
    hbodies _ (Entries.mem_of_find? hfind)
  obtain ⟨hfound, hagree⟩ := cycle_agrees_with_reachableCycle? declarations
  obtain ⟨names, hnames, hsubset⟩ := hfound "Visit" _ hcycle
  refine ⟨hfree, hcycle, ⟨names, hnames, hsubset⟩, ?_⟩
  intro hall
  rw [(hagree hfree).mpr hall] at hnames
  cases hnames

end Report

end Specimen.Index
