import Mathlib
import Specimen.Proofs.Reference.Detection

/-!
# The mentions that a report counts

A mention has a place: a declared name, the number of a field of the declaration, and the way down
in the type of the field. Places are ordered by name, then by field, then from left to right. The
report has an entry for each mention that leads nowhere, in this order, and an edge for each pair of
different declared names of which the first one mentions the second one. Main statement:
`Index.referenceReport_exact`.
-/

namespace Specimen

/-! ## Mentions in a type -/

namespace TypeRef

/-- The type mentions the name at a place. The place is the way down to the name: the number of the
argument at each generic type, and zero at each array. -/
inductive MentionAt : TypeRef → List Nat → String → Prop
  | named (name : String) : MentionAt (.named name) [] name
  | generic {name mentioned : String} {args : List TypeRef} {number : Nat} {arg : TypeRef}
      {place : List Nat} (harg : args[number]? = some arg) (h : MentionAt arg place mentioned) :
      MentionAt (.generic name args) (number :: place) mentioned
  | arrayOf {element : TypeRef} {place : List Nat} {mentioned : String}
      (h : MentionAt element place mentioned) : MentionAt (.arrayOf element) (0 :: place) mentioned

/-- Mentions with their places, seen from one type further up. -/
def within (number : Nat) (mentions : List (List Nat × String)) : List (List Nat × String) :=
  mentions.map fun mention => (number :: mention.1, mention.2)

mutual

/-- The names that a type mentions with their places, from left to right. -/
def placedMentions : TypeRef → List (List Nat × String)
  | .primitive _ => []
  | .named name => [([], name)]
  | .generic _ args => argPlacedMentions 0 args
  | .arrayOf element => within 0 (placedMentions element)
  | .unsupported _ => []
termination_by structural type => type

/-- The names that type arguments mention with their places, where the arguments are counted from
`first` on. -/
def argPlacedMentions (first : Nat) : List TypeRef → List (List Nat × String)
  | [] => []
  | arg :: args => within first (placedMentions arg) ++ argPlacedMentions (first + 1) args
termination_by structural args => args

end

theorem map_snd_within (number : Nat) (mentions : List (List Nat × String)) :
    (within number mentions).map Prod.snd = mentions.map Prod.snd := by
  simp [within]

theorem mem_within_iff {number : Nat} {mentions : List (List Nat × String)} {place : List Nat}
    {name : String} :
    (place, name) ∈ within number mentions
      ↔ ∃ rest, place = number :: rest ∧ (rest, name) ∈ mentions := by
  simp only [within, List.mem_map, Prod.mk.injEq, Prod.exists]
  constructor
  · rintro ⟨rest, other, hmem, rfl, rfl⟩
    exact ⟨rest, rfl, hmem⟩
  · rintro ⟨rest, rfl, hmem⟩
    exact ⟨rest, name, hmem, rfl, rfl⟩

theorem pairwise_within {number : Nat} {mentions : List (List Nat × String)}
    (h : mentions.Pairwise fun a b => a.1 < b.1) :
    (within number mentions).Pairwise fun a b => a.1 < b.1 := by
  refine List.pairwise_map.mpr (h.imp fun hlt => ?_)
  exact List.cons_lt_cons_iff.mpr (.inr ⟨rfl, hlt⟩)

mutual

/-- Without their places these are the names that the type mentions. -/
theorem map_snd_placedMentions : (type : TypeRef) →
    (placedMentions type).map Prod.snd = mentions type
  | .primitive _ => rfl
  | .named _ => rfl
  | .generic _ args => map_snd_argPlacedMentions 0 args
  | .arrayOf element => (map_snd_within 0 _).trans (map_snd_placedMentions element)
  | .unsupported _ => rfl
termination_by structural type => type

theorem map_snd_argPlacedMentions (first : Nat) : (args : List TypeRef) →
    (argPlacedMentions first args).map Prod.snd = argMentions args
  | [] => rfl
  | arg :: args => by
      rw [argPlacedMentions, argMentions, List.map_append, map_snd_within,
        map_snd_placedMentions arg, map_snd_argPlacedMentions (first + 1) args]
termination_by structural args => args

end

mutual

theorem mem_placedMentions_iff : (type : TypeRef) → ∀ {place : List Nat} {name : String},
    (place, name) ∈ placedMentions type ↔ MentionAt type place name
  | .primitive _, _, _ => ⟨(nomatch ·), (nomatch ·)⟩
  | .named _, place, name => by
      rw [placedMentions, List.mem_singleton]
      constructor
      · rintro ⟨⟩
        exact .named _
      · rintro ⟨⟩
        rfl
  | .generic _ args, place, name => by
      rw [placedMentions, mem_argPlacedMentions_iff 0 args]
      constructor
      · rintro ⟨number, arg, rest, harg, rfl, h⟩
        rw [Nat.zero_add]
        exact .generic harg h
      · rintro ⟨⟩
        rename_i number arg rest harg h
        exact ⟨number, arg, rest, harg, by rw [Nat.zero_add], h⟩
  | .arrayOf element, place, name => by
      rw [placedMentions, mem_within_iff]
      constructor
      · rintro ⟨rest, rfl, h⟩
        exact .arrayOf ((mem_placedMentions_iff element).mp h)
      · rintro ⟨⟩
        rename_i rest h
        exact ⟨rest, rfl, (mem_placedMentions_iff element).mpr h⟩
  | .unsupported _, _, _ => ⟨(nomatch ·), (nomatch ·)⟩
termination_by structural type => type

theorem mem_argPlacedMentions_iff (first : Nat) : (args : List TypeRef) →
    ∀ {place : List Nat} {name : String},
    (place, name) ∈ argPlacedMentions first args
      ↔ ∃ number arg rest, args[number]? = some arg ∧ place = (first + number) :: rest
          ∧ MentionAt arg rest name
  | [], _, _ => by simp [argPlacedMentions]
  | arg :: args, place, name => by
      rw [argPlacedMentions, List.mem_append, mem_within_iff,
        mem_argPlacedMentions_iff (first + 1) args]
      constructor
      · rintro (⟨rest, rfl, h⟩ | ⟨number, other, rest, hother, rfl, h⟩)
        · exact ⟨0, arg, rest, rfl, rfl, (mem_placedMentions_iff arg).mp h⟩
        · exact ⟨number + 1, other, rest, hother, by rw [Nat.add_right_comm, Nat.add_assoc], h⟩
      · rintro ⟨number, other, rest, hother, rfl, h⟩
        cases number with
        | zero =>
            cases hother
            exact .inl ⟨rest, rfl, (mem_placedMentions_iff arg).mpr h⟩
        | succ number =>
            exact .inr ⟨number, other, rest, hother, by rw [Nat.add_right_comm, Nat.add_assoc], h⟩
termination_by structural args => args

end

mutual

/-- From left to right the places ascend. -/
theorem pairwise_placedMentions : (type : TypeRef) →
    (placedMentions type).Pairwise fun a b => a.1 < b.1
  | .primitive _ => .nil
  | .named _ => List.pairwise_singleton _ _
  | .generic _ args => pairwise_argPlacedMentions 0 args
  | .arrayOf element => pairwise_within (pairwise_placedMentions element)
  | .unsupported _ => .nil
termination_by structural type => type

theorem pairwise_argPlacedMentions (first : Nat) : (args : List TypeRef) →
    (argPlacedMentions first args).Pairwise fun a b => a.1 < b.1
  | [] => .nil
  | arg :: args => by
      rw [argPlacedMentions, List.pairwise_append]
      refine ⟨pairwise_within (pairwise_placedMentions arg),
        pairwise_argPlacedMentions (first + 1) args, ?_⟩
      rintro ⟨place, name⟩ hmem ⟨place', name'⟩ hmem'
      obtain ⟨rest, rfl, -⟩ := mem_within_iff.mp hmem
      obtain ⟨number, other, rest', -, rfl, -⟩ := (mem_argPlacedMentions_iff _ args).mp hmem'
      exact List.cons_lt_cons_iff.mpr (.inl (by omega))
termination_by structural args => args

end

end TypeRef

/-! ## Mentions in an index -/

/-- A name that a declaration mentions, with its place: the number of the field, or zero for the
target of an alias, and the way down in the type. -/
structure Mention where
  declaration : String
  part : Nat
  /-- The field, unless the mention is in the target of an alias. -/
  field : Option String
  place : List Nat
  name : String

namespace Mention

/-- The order of mentions: by the name of the declaration, then by field, then left to right. -/
def Precedes (first second : Mention) : Prop :=
  namePrecedes first.declaration second.declaration = true
    ∨ first.declaration = second.declaration
      ∧ (first.part < second.part ∨ first.part = second.part ∧ first.place < second.place)

theorem Precedes.ne {first second : Mention} (h : first.Precedes second) : first ≠ second := by
  rintro rfl
  rcases h with hname | ⟨-, hpart | ⟨-, hplace⟩⟩
  · exact ne_of_namePrecedes hname rfl
  · exact Nat.lt_irrefl _ hpart
  · exact List.lt_irrefl _ hplace

/-- The entry of a report for a mention that leads nowhere. -/
def dangling (mention : Mention) : DanglingReference :=
  ⟨mention.declaration, mention.field, mention.name⟩

end Mention

/-- The mentions of a declaration, in order. -/
def Declaration.placedMentions (declaration : Declaration) : List Mention :=
  declaration.parts.zipIdx.flatMap fun part =>
    part.1.2.placedMentions.map fun mention =>
      ⟨declaration.name, part.2, part.1.1, mention.1, mention.2⟩

namespace Index

/-- The declaration of an indexed name mentions a name at a place. -/
def IsMention (index : Index) (mention : Mention) : Prop :=
  ∃ declaration type, index.find? mention.declaration = some declaration
    ∧ declaration.parts[mention.part]? = some (mention.field, type)
    ∧ type.MentionAt mention.place mention.name

/-- A mention that leads nowhere: its name is neither declared, nor the declaration itself, nor a
container that is built in. -/
structure IsDangling (index : Index) (mention : Mention) : Prop where
  mentioned : index.IsMention mention
  other : mention.name ≠ mention.declaration
  undeclared : index.contains mention.name = false
  notBuiltin : mention.name ∉ ["Array", "Map", "Set"]

/-- The declared name mentions another one that is declared. -/
structure HasEdge (index : Index) (name target : String) : Prop where
  mentions : ∃ mention, index.IsMention mention ∧ mention.declaration = name ∧ mention.name = target
  declared : index.contains name = true
  targetDeclared : index.contains target = true
  other : name ≠ target

end Index

theorem flatMap_zipIdx {α β : Type} (xs : List α) (f : α → List β) :
    (xs.zipIdx.flatMap fun x => f x.1) = xs.flatMap f := by
  rw [← List.flatMap_map Prod.fst f, List.zipIdx_map_fst]

namespace Declaration

variable {declaration : Declaration}

/-- Without their places these are the names that the declaration mentions. -/
theorem map_name_placedMentions (declaration : Declaration) :
    declaration.placedMentions.map Mention.name = declaration.mentions := by
  rw [placedMentions, mentions, ← flatMap_zipIdx declaration.parts, List.map_flatMap]
  refine List.flatMap_congr fun part _ => ?_
  rw [← TypeRef.map_snd_placedMentions, List.map_map]
  rfl

theorem mem_placedMentions_iff {mention : Mention} :
    mention ∈ declaration.placedMentions
      ↔ mention.declaration = declaration.name
        ∧ ∃ type, declaration.parts[mention.part]? = some (mention.field, type)
          ∧ type.MentionAt mention.place mention.name := by
  simp only [placedMentions, List.mem_flatMap, List.mem_map, Prod.exists,
    List.mem_zipIdx_iff_getElem?]
  constructor
  · rintro ⟨field, type, part, hpart, place, name, hmem, rfl⟩
    exact ⟨rfl, type, hpart, (TypeRef.mem_placedMentions_iff type).mp hmem⟩
  · obtain ⟨owner, part, field, place, name⟩ := mention
    rintro ⟨rfl, type, hpart, h⟩
    exact ⟨field, type, part, hpart, place, name, (TypeRef.mem_placedMentions_iff type).mpr h, rfl⟩

theorem pairwise_placedMentions (declaration : Declaration) :
    declaration.placedMentions.Pairwise Mention.Precedes := by
  rw [placedMentions, List.pairwise_flatMap]
  constructor
  · intro part _
    refine List.pairwise_map.mpr ((part.1.2.pairwise_placedMentions).imp fun hlt => ?_)
    exact .inr ⟨rfl, .inr ⟨rfl, hlt⟩⟩
  · have hnumbers : (declaration.parts.zipIdx.map Prod.snd).Pairwise (· < ·) := by
      rw [List.zipIdx_map_snd]
      exact List.pairwise_lt_range'
    refine (List.pairwise_map.mp hnumbers).imp fun hlt mention hmem mention' hmem' => ?_
    obtain ⟨_, -, rfl⟩ := List.mem_map.mp hmem
    obtain ⟨_, -, rfl⟩ := List.mem_map.mp hmem'
    exact .inr ⟨rfl, .inl hlt⟩

end Declaration

namespace Index

variable {index : Index}

/-- The name of a mention leads nowhere. -/
def leadsNowhere (index : Index) (mention : Mention) : Bool :=
  mention.name != mention.declaration && !index.contains mention.name && !isContainer mention.name

/-- The mentions that lead nowhere, in order. -/
def danglingMentions (index : Index) : List Mention :=
  index.declarations.flatMap fun declaration =>
    declaration.placedMentions.filter index.leadsNowhere

theorem danglingOf_eq_map (index : Index) (declaration : Declaration) :
    index.danglingOf declaration
      = (declaration.placedMentions.filter index.leadsNowhere).map Mention.dangling := by
  rw [danglingOf, Declaration.placedMentions, List.filter_flatMap, List.map_flatMap,
    ← flatMap_zipIdx]
  refine List.flatMap_congr fun part _ => ?_
  rw [← TypeRef.map_snd_placedMentions, List.filter_map, List.filter_map, List.map_map,
    List.map_map]
  rfl

theorem dangling_eq_map (index : Index) :
    index.referenceReport.dangling = index.danglingMentions.map Mention.dangling := by
  rw [danglingMentions, List.map_flatMap]
  exact List.flatMap_congr fun declaration _ => index.danglingOf_eq_map declaration

section Named

variable (hnamed : index.IsNamed) (hascending : Ascending index.names)

include hnamed hascending

theorem pairwise_declarations :
    index.declarations.Pairwise fun a b => namePrecedes a.name b.name = true := by
  rw [← List.pairwise_map (R := fun a b => namePrecedes a b = true),
    map_name_declarations hnamed hascending.nodup]
  exact hascending

theorem mem_danglingMentions_iff {mention : Mention} :
    mention ∈ index.danglingMentions ↔ index.IsDangling mention := by
  simp only [danglingMentions, List.mem_flatMap, List.mem_filter,
    mem_declarations_iff hnamed hascending.nodup, Declaration.mem_placedMentions_iff, leadsNowhere,
    Bool.and_eq_true, Bool.not_eq_true', bne_iff_ne]
  constructor
  · rintro ⟨declaration, hfind, ⟨hname, type, hpart, h⟩, ⟨hother, hundeclared⟩, hcontainer⟩
    refine ⟨⟨declaration, type, hname ▸ hfind, hpart, h⟩, hother, hundeclared, ?_⟩
    simpa [isContainer, builtinContainers] using hcontainer
  · rintro ⟨⟨declaration, type, hfind, hpart, h⟩, hother, hundeclared, hcontainer⟩
    have hname := hnamed _ _ hfind
    refine ⟨declaration, hname.symm ▸ hfind, ⟨hname.symm, type, hpart, h⟩,
      ⟨hother, hundeclared⟩, ?_⟩
    simpa [isContainer, builtinContainers] using hcontainer

theorem pairwise_danglingMentions : index.danglingMentions.Pairwise Mention.Precedes := by
  rw [danglingMentions, List.pairwise_flatMap]
  constructor
  · exact fun declaration _ => declaration.pairwise_placedMentions.filter _
  · refine (pairwise_declarations hnamed hascending).imp
      fun hbefore mention hmem mention' hmem' => ?_
    have hname := (Declaration.mem_placedMentions_iff.mp (List.mem_filter.mp hmem).1).1
    have hname' := (Declaration.mem_placedMentions_iff.mp (List.mem_filter.mp hmem').1).1
    exact .inl (hname ▸ hname' ▸ hbefore)

end Named

/-! ## The nodes, the edges and the names that mention themselves -/

/-- The names that an indexed declaration mentions are those that it mentions at some place. -/
theorem mem_mentions_iff {declaration : Declaration} {name : String}
    (hfind : index.find? declaration.name = some declaration) :
    name ∈ declaration.mentions
      ↔ ∃ mention, index.IsMention mention ∧ mention.declaration = declaration.name
          ∧ mention.name = name := by
  rw [← declaration.map_name_placedMentions, List.mem_map]
  constructor
  · rintro ⟨mention, hmem, rfl⟩
    obtain ⟨hname, type, hpart, h⟩ := Declaration.mem_placedMentions_iff.mp hmem
    exact ⟨mention, ⟨declaration, type, hname ▸ hfind, hpart, h⟩, hname, rfl⟩
  · rintro ⟨mention, ⟨found, type, hfound, hpart, h⟩, hname, rfl⟩
    rw [hname, hfind] at hfound
    cases hfound
    exact ⟨mention, Declaration.mem_placedMentions_iff.mpr ⟨hname, type, hpart, h⟩, rfl⟩

/-- There are as many elements with a property as there are entries in a list of them without
repetition. -/
theorem ncard_eq_length {α : Type} {elements : List α} {p : α → Prop} (hnodup : elements.Nodup)
    (hmem : ∀ x, x ∈ elements ↔ p x) : {x | p x}.ncard = elements.length := by
  classical
  have hset : {x | p x} = (elements.toFinset : Set α) := by
    ext x
    simp [hmem]
  rw [hset, Set.ncard_coe_finset, List.toFinset_card_of_nodup hnodup]

/-- The edges of the graph of a report, each as a pair of names. -/
def edges (index : Index) : List (String × String) :=
  index.declarations.flatMap fun declaration =>
    (index.targets declaration).map (declaration.name, ·)

theorem length_edges (index : Index) : index.referenceReport.edges = index.edges.length := by
  simp only [referenceReport, referenceGraph, edges, List.length_flatMap, List.length_map,
    List.map_map]
  rfl

section Named

variable (hnamed : index.IsNamed) (hascending : Ascending index.names)

include hnamed hascending

theorem nodup_edges : index.edges.Nodup := by
  rw [edges, List.nodup_flatMap]
  constructor
  · intro declaration _
    exact (nodup_eraseDups _).map fun _ _ h => (Prod.mk.inj h).2
  · refine (pairwise_declarations hnamed hascending).imp fun hbefore => ?_
    rintro edge hmem hmem'
    obtain ⟨_, -, rfl⟩ := List.mem_map.mp hmem
    obtain ⟨_, -, hedge⟩ := List.mem_map.mp hmem'
    exact ne_of_namePrecedes hbefore (Prod.mk.inj hedge).1.symm

theorem mem_edges_iff {edge : String × String} :
    edge ∈ index.edges ↔ index.HasEdge edge.1 edge.2 := by
  obtain ⟨name, target⟩ := edge
  simp only [edges, List.mem_flatMap, List.mem_map, mem_declarations_iff hnamed hascending.nodup,
    targets, List.mem_eraseDups, List.mem_filter, Bool.and_eq_true, bne_iff_ne, Prod.mk.injEq]
  constructor
  · rintro ⟨declaration, hfind, _, ⟨hmentions, hother, hdeclared⟩, rfl, rfl⟩
    refine ⟨(mem_mentions_iff hfind).mp hmentions, ?_, hdeclared, hother.symm⟩
    exact contains_iff.mpr (mem_names_of_find? hfind)
  · rintro ⟨hmention, hdeclared, htarget, hother⟩
    obtain ⟨declaration, hfind⟩ := Option.isSome_iff_exists.mp hdeclared
    obtain rfl := hnamed _ _ hfind
    refine ⟨declaration, hfind, target, ⟨?_, hother.symm, htarget⟩, rfl, rfl⟩
    exact (mem_mentions_iff hfind).mpr hmention

theorem mem_selfReferential_iff {name : String} :
    name ∈ index.referenceReport.selfReferential
      ↔ ∃ mention, index.IsMention mention ∧ mention.declaration = name ∧ mention.name = name := by
  simp only [referenceReport, List.mem_map, List.mem_filter,
    mem_declarations_iff hnamed hascending.nodup, Declaration.isSelfReferential,
    List.contains_iff_mem]
  constructor
  · rintro ⟨declaration, ⟨hfind, hmem⟩, rfl⟩
    exact (mem_mentions_iff hfind).mp hmem
  · intro h
    have hmention := h
    obtain ⟨mention, ⟨declaration, type, hfind, -, -⟩, hname, -⟩ := h
    rw [hname] at hfind
    obtain rfl := hnamed _ _ hfind
    exact ⟨declaration, ⟨hfind, (mem_mentions_iff hfind).mpr hmention⟩, rfl⟩

theorem ascending_selfReferential : Ascending index.referenceReport.selfReferential := by
  refine hascending.sublist ?_
  rw [← map_name_declarations hnamed hascending.nodup]
  exact List.filter_sublist.map _

end Named

/-! ## The report -/

/-- What a report says about the names of an index. -/
structure IsExact (index : Index) (report : ReferenceReport) : Prop where
  nodes : report.nodes = {name | index.contains name = true}.ncard
  edges : report.edges = {edge : String × String | index.HasEdge edge.1 edge.2}.ncard
  ascending : Ascending report.selfReferential
  selfReferential : ∀ name, name ∈ report.selfReferential
    ↔ ∃ mention, index.IsMention mention ∧ mention.declaration = name ∧ mention.name = name
  dangling : ∃ mentions : List Mention, mentions.Nodup ∧ mentions.Pairwise Mention.Precedes
    ∧ (∀ mention, mention ∈ mentions ↔ index.IsDangling mention)
    ∧ report.dangling = mentions.map Mention.dangling

/-- The report counts the declared names and the pairs of different declared names of which the
first one mentions the second one. It lists the names that mention themselves in ascending order,
and an entry for each mention that leads nowhere in the order of the mentions. -/
theorem referenceReport_exact (declarations : List Declaration) :
    let index := Index.ofList declarations
    index.IsExact index.referenceReport := by
  intro index
  have hnamed : index.IsNamed := isNamed_ofList declarations
  have hascending : Ascending index.names := ascending_ofList declarations
  constructor
  · rw [ncard_eq_length hascending.nodup fun name => contains_iff.symm]
    simp [referenceReport, referenceGraph, Index.declarations, names, Entries.names]
  · rw [ncard_eq_length (nodup_edges hnamed hascending) fun edge => mem_edges_iff hnamed hascending]
    exact length_edges index
  · exact ascending_selfReferential hnamed hascending
  · exact fun name => mem_selfReferential_iff hnamed hascending
  · have hordered := pairwise_danglingMentions hnamed hascending
    exact ⟨index.danglingMentions, hordered.imp Mention.Precedes.ne, hordered,
      fun mention => mem_danglingMentions_iff hnamed hascending, dangling_eq_map index⟩

/-- Two mentions of a name that is not declared are two entries; two mentions of a declared name are
one edge. -/
example :
    (Index.ofList [⟨"Pet", .interface [⟨"owner", .named "Owner", false⟩,
        ⟨"kin", .generic "Map" [.named "Kind", .arrayOf (.named "Pet")], false⟩]⟩,
      ⟨"Owner", .alias (.generic "Map" [.named "Kind", .generic "Set" [.named "Kind"]])⟩]
        ).referenceReport
      = ⟨2, 1, [⟨"Owner", none, "Kind"⟩, ⟨"Owner", none, "Kind"⟩, ⟨"Pet", some "kin", "Kind"⟩],
          ["Pet"], none⟩ := by cbv

end Index

end Specimen
