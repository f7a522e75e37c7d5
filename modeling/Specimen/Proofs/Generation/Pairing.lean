import Mathlib.Data.List.Forall2
import Specimen.Generation.Basic

/-!
# Attempts side by side

Two runs of the generation may differ in their indexes, in their options and in how deep
declarations may nest. Two attempts are paired if from every source they end with related values
and with the same source behind them; `mayStop` says whether both may give up instead.

A `Likeness` is a relation between samples that the containers keep: what is alike counts as the
same key and as the same member. Every step of the generation keeps attempts paired up to a
likeness, as soon as the two ways of entering declarations are paired on the names that the type
mentions.
-/

namespace Specimen.Generation

variable {σ α α' β β' : Type}

/-- Two results with the same source behind related values, or no results where that is allowed. -/
inductive Together (mayStop : Prop) (related : α → α' → Prop) :
    Option (α × σ) → Option (α' × σ) → Prop
  | ended {value : α} {value' : α'} (next : σ) (h : related value value') :
      Together mayStop related (some (value, next)) (some (value', next))
  | stopped (h : mayStop) : Together mayStop related none none

/-- From every source the two attempts stay together. -/
def Paired (mayStop : Prop) (related : α → α' → Prop) (first : Attempt σ α)
    (second : Attempt σ α') : Prop :=
  ∀ source, Together mayStop related (first source) (second source)

namespace Paired

variable {mayStop : Prop} {related : α → α' → Prop} {related' : β → β' → Prop}
  {first : Attempt σ α} {second : Attempt σ α'}

theorem pure {value : α} {value' : α'} (h : related value value') :
    Paired (σ := σ) mayStop related (Pure.pure value) (Pure.pure value') := by
  intro source
  exact .ended source h

theorem draw {related : α → α → Prop} (hrefl : ∀ value, related value value) (draw : Draw σ α) :
    Paired mayStop related draw.attempt draw.attempt := by
  intro source
  exact .ended (draw source).2 (hrefl (draw source).1)

theorem bind {next : α → Attempt σ β} {next' : α' → Attempt σ β'}
    (h : Paired mayStop related first second)
    (hnext : ∀ value value', related value value' →
      Paired mayStop related' (next value) (next' value')) :
    Paired mayStop related' (first >>= next) (second >>= next') := by
  intro source
  have hfirst := h source
  simp only [Bind.bind, StateT.bind]
  generalize first source = result at hfirst
  generalize second source = result' at hfirst
  cases hfirst with
  | ended between hvalue => exact hnext _ _ hvalue between
  | stopped hstop => exact .stopped hstop

theorem map {f : α → β} {f' : α' → β'} (h : Paired mayStop related first second)
    (himp : ∀ value value', related value value' → related' (f value) (f' value')) :
    Paired mayStop related' (f <$> first) (f' <$> second) :=
  h.bind fun value value' hvalue => pure (himp value value' hvalue)

theorem mono {wider : α → α' → Prop} (h : Paired mayStop related first second)
    (himp : ∀ value value', related value value' → wider value value') :
    Paired mayStop wider first second := by
  intro source
  have hboth := h source
  generalize first source = result at hboth ⊢
  generalize second source = result' at hboth ⊢
  cases hboth with
  | ended next hvalue => exact .ended next (himp _ _ hvalue)
  | stopped hstop => exact .stopped hstop

theorem gather (h : Paired mayStop related first second) (count : Nat) :
    Paired mayStop (List.Forall₂ related) (gather first count) (gather second count) := by
  induction count with
  | zero => exact pure .nil
  | succ count ih =>
      refine h.bind fun value value' hvalue => ih.bind fun others others' hothers => pure ?_
      exact .cons hvalue hothers

end Paired

/-! ## Likenesses -/

/-- A relation between samples, and one between the values of the fields of a name, that are kept
when samples are put together. -/
structure Likeness where
  like : Sample → Sample → Prop
  likeField : String → Sample → Sample → Prop
  refl : ∀ sample, like sample sample
  field : ∀ {name sample sample'}, like sample sample' → likeField name sample sample'
  /-- What is alike counts as the same key and as the same member. -/
  sameScalar : ∀ {a a' b b'}, like a a' → like b b' →
    Sample.sameScalar a b = Sample.sameScalar a' b'
  array : ∀ {items items'}, List.Forall₂ like items items' → like (.array items) (.array items')
  set : ∀ {members members'}, List.Forall₂ like members members' →
    like (.set members) (.set members')
  map : ∀ {entries entries'},
    List.Forall₂ (fun entry entry' => like entry.1 entry'.1 ∧ like entry.2 entry'.2)
      entries entries' → like (.map entries) (.map entries')
  object : ∀ {fields fields'},
    List.Forall₂ (fun field field' => field.1 = field'.1 ∧ likeField field.1 field.2 field'.2)
      fields fields' → like (.object fields) (.object fields')

theorem eq_of_forall₂_eq {l l' : List α} (h : List.Forall₂ Eq l l') : l = l' :=
  List.forall₂_eq_eq_eq ▸ h

theorem eq_of_forall₂_pairs {l l' : List (α × β)}
    (h : List.Forall₂ (fun pair pair' => pair.1 = pair'.1 ∧ pair.2 = pair'.2) l l') : l = l' :=
  eq_of_forall₂_eq (h.imp fun _ _ heq => Prod.ext heq.1 heq.2)

namespace Likeness

/-- Equality. -/
def equality : Likeness where
  like := Eq
  likeField _ := Eq
  refl _ := rfl
  field := id
  sameScalar := by
    rintro a - b - rfl rfl
    rfl
  array h := congrArg Sample.array (eq_of_forall₂_eq h)
  set h := congrArg Sample.set (eq_of_forall₂_eq h)
  map h := congrArg Sample.map (eq_of_forall₂_pairs h)
  object h := congrArg Sample.object (eq_of_forall₂_pairs h)

variable (likeness : Likeness)

/-- Entries of two maps with alike keys and alike values. -/
def LikeEntries : List (Sample × Sample) → List (Sample × Sample) → Prop :=
  List.Forall₂ fun entry entry' =>
    likeness.like entry.1 entry'.1 ∧ likeness.like entry.2 entry'.2

/-- Fields of two objects with the same names and alike values. -/
def LikeFields : List (String × Sample) → List (String × Sample) → Prop :=
  List.Forall₂ fun field field' =>
    field.1 = field'.1 ∧ likeness.likeField field.1 field.2 field'.2

variable {likeness}

theorem likeEntries_insertEntry {key key' value value' : Sample}
    {entries entries' : List (Sample × Sample)} (hkey : likeness.like key key')
    (hvalue : likeness.like value value') (h : likeness.LikeEntries entries entries') :
    likeness.LikeEntries (Sample.insertEntry key value entries)
      (Sample.insertEntry key' value' entries') := by
  induction h with
  | nil => exact .cons ⟨hkey, hvalue⟩ .nil
  | @cons entry entry' rest rest' hentry hrest ih =>
      obtain ⟨other, kept⟩ := entry
      obtain ⟨other', kept'⟩ := entry'
      simp only [Sample.insertEntry, likeness.sameScalar hentry.1 hkey]
      split
      · exact .cons ⟨hentry.1, hvalue⟩ hrest
      · exact .cons hentry ih

theorem like_insertMember {member member' : Sample} {members members' : List Sample}
    (hmember : likeness.like member member')
    (h : List.Forall₂ likeness.like members members') :
    List.Forall₂ likeness.like (Sample.insertMember member members)
      (Sample.insertMember member' members') := by
  have hany : (members.any fun other => Sample.sameScalar other member)
      = members'.any fun other => Sample.sameScalar other member' := by
    induction h with
    | nil => rfl
    | cons hother _ ih => simp only [List.any_cons, likeness.sameScalar hother hmember, ih]
  simp only [Sample.insertMember, hany]
  split
  · exact h
  · exact List.rel_append h (.cons hmember .nil)

theorem likeFields_set {name : String} {value value' : Sample}
    {fields fields' : List (String × Sample)} (hvalue : likeness.likeField name value value')
    (h : likeness.LikeFields fields fields') :
    likeness.LikeFields (Entries.set name value fields) (Entries.set name value' fields') := by
  induction h with
  | nil => exact .cons ⟨rfl, hvalue⟩ .nil
  | @cons field field' rest rest' hfield hrest ih =>
      obtain ⟨other, kept⟩ := field
      obtain ⟨other', kept'⟩ := field'
      obtain ⟨rfl, hkept⟩ := hfield
      simp only [Entries.set]
      split
      · exact .cons ⟨rfl, hvalue⟩ hrest
      · exact .cons ⟨rfl, hkept⟩ ih

end Likeness

/-! ## Containers -/

section Containers

variable {mayStop : Prop} {likeness : Likeness} {key key' value value' : Attempt σ Sample}

theorem paired_mapEntries (hkey : Paired mayStop likeness.like key key')
    (hvalue : Paired mayStop likeness.like value value') (count : Nat)
    {entries entries' : List (Sample × Sample)} (h : likeness.LikeEntries entries entries') :
    Paired mayStop likeness.LikeEntries (mapEntries key value count entries)
      (mapEntries key' value' count entries') := by
  induction count generalizing entries entries' with
  | zero => exact .pure h
  | succ count ih =>
      refine hkey.bind fun newKey newKey' hnewKey => ?_
      refine hvalue.bind fun newValue newValue' hnewValue => ?_
      exact ih (Likeness.likeEntries_insertEntry hnewKey hnewValue h)

theorem paired_enumEntries (hvalue : Paired mayStop likeness.like value value')
    (members : List EnumMember) {entries entries' : List (Sample × Sample)}
    (h : likeness.LikeEntries entries entries') :
    Paired mayStop likeness.LikeEntries (enumEntries value members entries)
      (enumEntries value' members entries') := by
  induction members generalizing entries entries' with
  | nil => exact .pure h
  | cons member members ih =>
      refine hvalue.bind fun newValue newValue' hnewValue => ?_
      exact ih (Likeness.likeEntries_insertEntry (likeness.refl _) hnewValue h)

theorem paired_setMembers (hvalue : Paired mayStop likeness.like value value') (count : Nat)
    {members members' : List Sample} (h : List.Forall₂ likeness.like members members') :
    Paired mayStop (List.Forall₂ likeness.like) (setMembers value count members)
      (setMembers value' count members') := by
  induction count generalizing members members' with
  | zero => exact .pure h
  | succ count ih =>
      refine hvalue.bind fun new new' hnew => ?_
      exact ih (Likeness.like_insertMember hnew h)

theorem paired_getD {args args' : List (Attempt σ Sample)}
    (h : List.Forall₂ (Paired mayStop likeness.like) args args') (place : Nat) :
    Paired mayStop likeness.like (args[place]?.getD (pure .null))
      (args'[place]?.getD (pure .null)) := by
  induction h generalizing place with
  | nil => exact .pure (likeness.refl Sample.null)
  | cons hfirst _ ih =>
      cases place with
      | zero => exact hfirst
      | succ place => exact ih place

theorem paired_container {args args' : List (Attempt σ Sample)} (name : String)
    (keys : Option (List EnumMember))
    (h : List.Forall₂ (Paired mayStop likeness.like) args args') (length : Nat) :
    Paired mayStop likeness.like (container name keys args length)
      (container name keys args' length) := by
  have hfirst := paired_getD h 0
  have hsecond := paired_getD h 1
  unfold container
  split
  · split
    · exact (paired_enumEntries hsecond _ .nil).map fun _ _ => likeness.map
    · exact (paired_mapEntries hfirst hsecond length .nil).map fun _ _ => likeness.map
  · exact (paired_setMembers hfirst length .nil).map fun _ _ => likeness.set
  · exact (hfirst.gather length).map fun _ _ => likeness.array
  · exact .pure (likeness.refl Sample.null)

end Containers

/-! ## Types -/

section Types

variable [WordSource σ] {mayStop : Prop} {likeness : Likeness} {index index' : Index}
  {enter enter' : Enter σ} {options options' : Options} {guard : Guard}

/-- The name means the same in both indexes, and below a guard that is not exhausted the two ways of
entering it are paired. -/
structure PairedOn (mayStop : Prop) (likeness : Likeness) (index index' : Index)
    (enter enter' : Enter σ) (options options' : Options) (guard : Guard) (name : String) :
    Prop where
  find : index.find? name = index'.find? name
  enter : guard.isExhausted = false → ∀ declaration, index.find? name = some declaration →
    Paired mayStop likeness.like (enter options (guard.descend (.named name)) declaration)
      (enter' options' (guard.descend (.named name)) declaration)

theorem enumKeys?_eq {args : List TypeRef}
    (h : ∀ name ∈ TypeRef.argMentions args, index.find? name = index'.find? name) :
    enumKeys? index args = enumKeys? index' args := by
  unfold enumKeys?
  split
  · rename_i name rest
    simp only [Index.enumMembers?, h name (by simp [TypeRef.argMentions, TypeRef.mentions])]
  · rfl

mutual

theorem paired_ofType : (type : TypeRef) →
    (∀ name ∈ type.mentions,
      PairedOn mayStop likeness index index' enter enter' options options' guard name) →
    Paired mayStop likeness.like (ofType index enter options guard type)
      (ofType index' enter' options' guard type)
  | .primitive type, _ => by
      unfold ofType
      split
      · exact .pure (likeness.refl _)
      · exact .draw likeness.refl _
  | .named name, h => by
      have hname := h name (by simp [TypeRef.mentions])
      unfold ofType
      rw [← hname.find]
      split
      · exact .pure (likeness.refl _)
      · rename_i hopen
        split
        · rename_i declaration hfind
          exact hname.enter (by simpa using hopen) declaration hfind
        · exact paired_container name none .nil defaultLength
  | .generic name args, h => by
      unfold ofType
      rw [← enumKeys?_eq fun name hname => (h name hname).find]
      split
      · exact .pure (likeness.refl _)
      · exact paired_container name _ (paired_ofArgs args h) defaultLength
  | .arrayOf element, h => by
      unfold ofType
      split
      · exact .pure (likeness.refl _)
      · exact ((paired_ofType element h).gather defaultLength).map fun _ _ => likeness.array
  | .unsupported _, _ => by
      unfold ofType
      split
      · exact .pure (likeness.refl _)
      · exact .pure (likeness.refl _)
termination_by structural type => type

theorem paired_ofArgs : (args : List TypeRef) →
    (∀ name ∈ TypeRef.argMentions args,
      PairedOn mayStop likeness index index' enter enter' options options' guard name) →
    List.Forall₂ (Paired mayStop likeness.like) (ofArgs index enter options guard args)
      (ofArgs index' enter' options' guard args)
  | [], _ => .nil
  | arg :: args, h => by
      simp only [TypeRef.argMentions, List.mem_append] at h
      exact .cons (paired_ofType arg fun name hname => h name (.inl hname))
        (paired_ofArgs args fun name hname => h name (.inr hname))
termination_by structural args => args

end

/-! ## Fields -/

/-- An array rule starts anew, so its type is entered without options and with a fresh guard. -/
theorem paired_ruleArray (length : Nat) (type : TypeRef)
    (h : ∀ name ∈ type.mentions,
      PairedOn mayStop likeness index index' enter enter' .empty .empty .start name) :
    Paired mayStop likeness.like (ruleArray index enter length type)
      (ruleArray index' enter' length type) := by
  unfold ruleArray
  split
  · rw [← enumKeys?_eq fun name hname => (h name hname).find]
    exact paired_container _ _ (paired_ofArgs _ h) length
  · split
    · exact paired_container _ none .nil length
    · exact .pure (likeness.refl _)
  · rename_i element
    exact ((paired_ofType element h).gather length).map fun _ _ => likeness.array
  · exact .pure (likeness.refl _)

theorem paired_ruleValue (rule : FieldRule) (type : TypeRef)
    (h : ∀ name ∈ type.mentions,
      PairedOn mayStop likeness index index' enter enter' .empty .empty .start name) :
    Paired mayStop likeness.like (ruleValue index enter rule type)
      (ruleValue index' enter' rule type) := by
  unfold ruleValue
  split
  · exact .draw likeness.refl _
  · exact .draw likeness.refl _
  · exact .draw likeness.refl _
  · exact paired_ruleArray _ type h

theorem paired_fieldValues (fields : List Field)
    (h : ∀ field ∈ fields, Paired mayStop (likeness.likeField field.name)
      (fieldValue index enter options guard field) (fieldValue index' enter' options' guard field))
    {values values' : List (String × Sample)} (hvalues : likeness.LikeFields values values') :
    Paired mayStop likeness.LikeFields (fieldValues index enter options guard fields values)
      (fieldValues index' enter' options' guard fields values') := by
  induction fields generalizing values values' with
  | nil => exact .pure hvalues
  | cons field fields ih =>
      refine (h field List.mem_cons_self).bind fun value value' hvalue => ?_
      refine ih ?_ (Likeness.likeFields_set hvalue hvalues)
      intro other hother
      exact h other (List.mem_cons_of_mem _ hother)

end Types

end Specimen.Generation
