import Specimen.Proofs.Source.Advance

/-!
# Loops that end

The readers of bodies and documents, and the functions that pass over tokens, go round loops. A
`Loop` says what one turn does: it goes on with a later place, or leaves the loop. A loop that
advances on every turn on which it goes on is left after at most one turn for each token and one
more. What it is left with is what the function gives that is defined by recursion.

Every reader is such a loop or is made of such loops, so the declarations of a document come out in
the end, or a fault does. Main statement: `declarationsOfText_progress`.
-/

namespace Specimen.Source

/-! ## Turns -/

/-- What one turn of a loop does: go on in a state with the tokens that are left, or leave. -/
inductive Turn (σ ρ : Type) where
  | again (state : σ) (rest : List Token)
  | leave (result : ρ)

/-- A turn that reads something first and leaves the loop with the fault if there is one. -/
def Turn.attempt {σ ρ α : Type} (result : Except Fault α) (next : α → Turn σ (Except Fault ρ)) :
    Turn σ (Except Fault ρ) :=
  match result with
  | .error fault => .leave (.error fault)
  | .ok x => next x

/-- Such a turn goes on behind what it has read. -/
theorem Turn.exists_of_attempt {σ ρ α : Type} {result : Except Fault α}
    {next : α → Turn σ (Except Fault ρ)} {state : σ} {rest : List Token}
    (h : attempt result next = .again state rest) :
    ∃ x, result = .ok x ∧ next x = .again state rest := by
  cases result with
  | error fault => cases h
  | ok x => exact ⟨x, rfl, h⟩

/-- A turn of a loop in a state at a place. -/
abbrev Loop (σ ρ : Type) := σ → List Token → Turn σ ρ

namespace Loop

variable {σ ρ : Type} {loop : Loop σ ρ} {f : σ → List Token → ρ}

/-- The loop is left with a result after a number of turns. -/
inductive Ends (loop : Loop σ ρ) : σ → List Token → Nat → ρ → Prop
  | leave {state : σ} {ts : List Token} {result : ρ} (hturn : loop state ts = .leave result) :
      Ends loop state ts 1 result
  | again {state next : σ} {ts rest : List Token} {turns : Nat} {result : ρ}
      (hturn : loop state ts = .again next rest) (hlater : Ends loop next rest turns result) :
      Ends loop state ts (turns + 1) result

/-- A turn that goes on in the loop goes on at a later place. -/
def AlwaysAdvances (loop : Loop σ ρ) : Prop :=
  ∀ tokens position state next rest, loop state (tokens.drop position) = .again next rest →
    Advances tokens position rest

/-- The function gives what the loop is left with, as far as one turn shows: leaving, the loop has
the value of the function, and going on does not change it. -/
def Computes (loop : Loop σ ρ) (f : σ → List Token → ρ) : Prop :=
  ∀ state ts, match loop state ts with
    | .leave result => f state ts = result
    | .again next rest => f state ts = f next rest

theorem Ends.eq {state : σ} {ts : List Token} {turns : Nat} {result : ρ}
    (h : loop.Ends state ts turns result) (hcomputes : loop.Computes f) : f state ts = result := by
  induction h with
  | @leave state ts result hturn =>
      have hvalue := hcomputes state ts
      rwa [hturn] at hvalue
  | @again state next ts rest turns result hturn _ ih =>
      have hvalue := hcomputes state ts
      rw [hturn] at hvalue
      exact hvalue.trans ih

/-- There are not more turns than tokens, but for the last turn. -/
theorem AlwaysAdvances.exists_ends (h : loop.AlwaysAdvances) (state : σ) (ts : List Token) :
    ∃ turns result, turns ≤ ts.length + 1 ∧ loop.Ends state ts turns result := by
  cases hturn : loop state ts with
  | leave result => exact ⟨1, result, by omega, .leave hturn⟩
  | again next rest =>
      obtain ⟨position, hposition, hend, hrest⟩ := h ts 0 state next rest hturn
      have hshort : rest.length < ts.length := by
        rw [hrest, List.length_drop]
        omega
      obtain ⟨turns, result, hturns, hends⟩ := h.exists_ends next rest
      exact ⟨turns + 1, result, by omega, .again hturn hends⟩
termination_by ts.length

/-- Every turn of the loop advances or leaves it, and it is left with the value of the function
after at most one turn for each token and one more. -/
structure Gives (loop : Loop σ ρ) (f : σ → List Token → ρ) : Prop where
  advances : loop.AlwaysAdvances
  ends : ∀ state ts, ∃ turns, turns ≤ ts.length + 1 ∧ loop.Ends state ts turns (f state ts)

theorem gives_of_computes (hcomputes : loop.Computes f)
    (hlater : ∀ state ts next rest, loop state ts = .again next rest →
      rest <:+ ts ∧ rest.length < ts.length) : loop.Gives f := by
  have hadvances : loop.AlwaysAdvances := fun tokens position state next rest hturn =>
    have hplace := hlater state (tokens.drop position) next rest hturn
    advances_of_suffix rfl hplace.1 hplace.2
  refine ⟨hadvances, fun state ts => ?_⟩
  obtain ⟨turns, result, hturns, hends⟩ := hadvances.exists_ends state ts
  exact ⟨turns, hturns, (hends.eq hcomputes).symm ▸ hends⟩

end Loop

/-! ## Passing over tokens -/

/-- Passing over the rest of a member. -/
def memberLoop : Loop Unit (List Token)
  | _, [] => .leave []
  | _, token :: rest =>
      if token.kind = .mark .semicolon ∨ token.kind = .mark .comma then .leave rest
      else if token.kind = .mark .closeBrace then .leave (token :: rest)
      else .again () (skipTree (token :: rest))

/-- Passing over a computed value. -/
def initializerLoop : Loop Unit (List Token)
  | _, [] => .leave []
  | _, token :: rest =>
      if atMemberEnd (token :: rest) then .leave (token :: rest)
      else .again () (skipTree (token :: rest))

/-- Passing over type parameters. The state is the number of angle brackets around. -/
def anglesLoop : Loop Nat (List Token)
  | _, [] => .leave []
  | depth, token :: rest =>
      let turn (inner : Nat) (rest : List Token) : Turn Nat (List Token) :=
        if inner = 0 then .leave rest else .again inner rest
      if token.kind = .mark .less then turn (depth + 1) rest
      else if token.kind = .mark .greater then turn (depth - 1) rest
      else turn depth (skipTree (token :: rest))

theorem skipTree_later (token : Token) (rest : List Token) :
    skipTree (token :: rest) <:+ token :: rest
      ∧ (skipTree (token :: rest)).length < (token :: rest).length :=
  ⟨skipTree_suffix _, length_skipTree_cons_lt token rest⟩

theorem tail_later (token : Token) (rest : List Token) :
    rest <:+ token :: rest ∧ rest.length < (token :: rest).length :=
  ⟨List.suffix_cons token rest, length_lt_cons token rest⟩

theorem gives_memberLoop : memberLoop.Gives fun _ => skipMember := by
  refine Loop.gives_of_computes (fun _ ts => ?_) fun _ ts _ rest hturn => ?_
  · cases ts with
    | nil => simp [memberLoop, skipMember]
    | cons token rest =>
        rw [skipMember]
        unfold memberLoop
        grind
  · cases ts with
    | nil => simp [memberLoop] at hturn
    | cons token more =>
        have := skipTree_later token more
        unfold memberLoop at hturn
        grind

theorem gives_initializerLoop : initializerLoop.Gives fun _ => skipInitializer := by
  refine Loop.gives_of_computes (fun _ ts => ?_) fun _ ts _ rest hturn => ?_
  · cases ts with
    | nil => simp [initializerLoop, skipInitializer]
    | cons token rest =>
        rw [skipInitializer]
        unfold initializerLoop
        grind
  · cases ts with
    | nil => simp [initializerLoop] at hturn
    | cons token more =>
        have := skipTree_later token more
        unfold initializerLoop at hturn
        grind

theorem gives_anglesLoop : anglesLoop.Gives skipAngles := by
  refine Loop.gives_of_computes (fun depth ts => ?_) fun depth ts _ rest hturn => ?_
  · cases ts with
    | nil => simp [anglesLoop, skipAngles]
    | cons token rest =>
        rw [skipAngles]
        unfold anglesLoop
        grind
  · cases ts with
    | nil => simp [anglesLoop] at hturn
    | cons token more =>
        have := skipTree_later token more
        have := tail_later token more
        unfold anglesLoop at hturn
        grind

/-! ## Reading members and declarations -/

/-- What a reader gives, with the values of a loop in front of its own. -/
def withEarlier {α : Type} {ts : List Token} (earlier : List α)
    (result : Except Fault (Taken ts (List α))) : Except Fault (List α × List Token) :=
  result.map fun read => (earlier ++ read.value, read.rest)

/-- What the reader adds in front of its rest counts as found before the rest. -/
theorem withEarlier_bind {α : Type} {ts ts' : List Token} (earlier more : List α)
    (result : Except Fault (Taken ts (List α))) {f : Taken ts (List α) → Taken ts' (List α)}
    (hf : ∀ read, (f read).value = more ++ read.value ∧ (f read).rest = read.rest) :
    withEarlier earlier (result >>= fun read => .ok (f read))
      = withEarlier (earlier ++ more) result := by
  cases result with
  | error fault => rfl
  | ok read =>
      obtain ⟨hvalue, hrest⟩ := hf read
      exact congrArg Except.ok (Prod.ext (by simp [hvalue]) hrest)

/-- Reading the body of an interface. The state has the fields found so far. -/
def bodyLoop (tail : List Char) (name : String) :
    Loop (List Field) (Except Fault (List Field × List Token))
  | _, [] => .leave (.error ⟨.unclosedInterface name, []⟩)
  | fields, token :: rest =>
      if token.kind = .mark .closeBrace then .leave (.ok (fields, rest))
      else .attempt (member tail (token :: rest)) fun read =>
        .again (fields ++ read.value.toList) read.rest

/-- Reading the types that an interface extends. -/
def heritageLoop : Loop Unit (Except Fault (List Token))
  | _, ts =>
      .attempt (typeExpr ts) fun read =>
        match read.rest with
        | [] => .leave (.ok [])
        | token :: rest =>
            if token.kind = .mark .comma then .again () rest else .leave (.ok (token :: rest))

/-- Reading the body of an enumeration. The state has the members found so far. -/
def enumLoop (enumeration : String) :
    Loop (List EnumMember) (Except Fault (List EnumMember × List Token))
  | _, [] => .leave (refuse (.enumMember enumeration) [])
  | members, token :: rest =>
      if token.kind = .mark .closeBrace then .leave (.ok (members, rest))
      else .attempt (enumMember enumeration (token :: rest)) fun read =>
        match read.rest with
        | [] => .leave (refuse .memberSeparator [])
        | separator :: after =>
            if separator.kind = .mark .comma then .again (members ++ [read.value]) after
            else if separator.kind = .mark .closeBrace then
              .again (members ++ [read.value]) (separator :: after)
            else .leave (refuse .memberSeparator (separator :: after))

/-- Reading a document. The state has the declarations found so far. A word that only modifies a
declaration takes a turn of its own. -/
def documentLoop (tail : List Char) : Loop (List Declaration) (Except Fault (List Declaration))
  | declarations, [] => .leave (.ok declarations)
  | declarations, first :: rest =>
      match declaration? tail first rest with
      | none => .again declarations (skipTree (first :: rest))
      | some result => .attempt result fun read => .again (declarations ++ [read.value]) read.rest

theorem gives_bodyLoop (tail : List Char) (name : String) : (bodyLoop tail name).Gives
    fun fields ts => withEarlier fields (interfaceBody tail name ts) := by
  refine Loop.gives_of_computes (fun fields ts => ?_) fun fields ts next rest hturn => ?_
  · cases ts with
    | nil =>
        rw [interfaceBody]
        rfl
    | cons token rest =>
        rw [interfaceBody, bodyLoop]
        by_cases hclose : token.kind = .mark .closeBrace
        · simp [if_pos hclose, withEarlier, Except.map, Taken.one]
        · rw [if_neg hclose, if_neg hclose]
          cases member tail (token :: rest) with
          | error fault => rfl
          | ok read =>
              exact withEarlier_bind fields read.value.toList (interfaceBody tail name read.rest)
                fun _ => ⟨rfl, rfl⟩
  · cases ts with
    | nil => cases hturn
    | cons token more =>
        rw [bodyLoop] at hturn
        split at hturn
        · cases hturn
        · obtain ⟨read, hmember, hturn⟩ := Turn.exists_of_attempt hturn
          cases hturn
          exact ⟨member_suffix hmember, read.shorter⟩

theorem gives_heritageLoop : heritageLoop.Gives fun _ ts => (heritage ts).map Taken.rest := by
  refine Loop.gives_of_computes (fun _ ts => ?_) fun _ ts next rest hturn => ?_
  · rw [heritage, heritageLoop]
    cases typeExpr ts with
    | error fault => rfl
    | ok read =>
        obtain ⟨type, rest, hshort⟩ := read
        cases rest with
        | nil => rfl
        | cons token rest =>
            dsimp only [bind, Except.bind, Turn.attempt]
            by_cases hcomma : token.kind = .mark .comma
            · rw [if_pos hcomma, if_pos hcomma]
              dsimp only
              cases heritage rest <;> rfl
            · rw [if_neg hcomma, if_neg hcomma]
              rfl
  · obtain ⟨read, htype, hturn⟩ := Turn.exists_of_attempt hturn
    have hsuffix := typeExpr_suffix htype
    obtain ⟨type, left, hshort⟩ := read
    cases left with
    | nil => cases hturn
    | cons token after =>
        have hlater := tail_later token after
        dsimp only at hturn hsuffix
        split at hturn
        · cases hturn
          exact ⟨hlater.1.trans hsuffix, Nat.lt_trans hlater.2 hshort⟩
        · cases hturn

theorem gives_enumLoop (enumeration : String) : (enumLoop enumeration).Gives
    fun members ts => withEarlier members (enumBody enumeration ts) := by
  refine Loop.gives_of_computes (fun members ts => ?_) fun members ts next rest hturn => ?_
  · cases ts with
    | nil =>
        rw [enumBody]
        rfl
    | cons token rest =>
        rw [enumBody, enumLoop]
        by_cases hclose : token.kind = .mark .closeBrace
        · simp [if_pos hclose, withEarlier, Except.map, Taken.one]
        · rw [if_neg hclose, if_neg hclose]
          cases enumMember enumeration (token :: rest) with
          | error fault => rfl
          | ok read =>
              obtain ⟨value, left, hshort⟩ := read
              cases left with
              | nil => rfl
              | cons separator after =>
                  dsimp only [bind, Except.bind, Turn.attempt]
                  by_cases hcomma : separator.kind = .mark .comma
                  · rw [if_pos hcomma, if_pos hcomma]
                    exact withEarlier_bind members [value] (enumBody enumeration after)
                      fun _ => ⟨rfl, rfl⟩
                  rw [if_neg hcomma, if_neg hcomma]
                  by_cases hbrace : separator.kind = .mark .closeBrace
                  · -- the loop finds the brace on its next turn
                    rw [if_pos hbrace, if_pos hbrace]
                    dsimp only
                    rw [enumBody, if_pos hbrace]
                    simp [withEarlier, Except.map, Taken.one, pure, Except.pure]
                  · rw [if_neg hbrace, if_neg hbrace]
                    rfl
  · cases ts with
    | nil => cases hturn
    | cons token more =>
        rw [enumLoop] at hturn
        split at hturn
        · cases hturn
        · obtain ⟨read, hmember, hturn⟩ := Turn.exists_of_attempt hturn
          have hsuffix := enumMember_suffix hmember
          obtain ⟨value, left, hshort⟩ := read
          cases left with
          | nil => cases hturn
          | cons separator after =>
              have hlater := tail_later separator after
              dsimp only at hturn hsuffix
              split at hturn
              · cases hturn
                exact ⟨hlater.1.trans hsuffix, Nat.lt_trans hlater.2 hshort⟩
              split at hturn
              · cases hturn
                exact ⟨hsuffix, hshort⟩
              · cases hturn

theorem gives_documentLoop (tail : List Char) : (documentLoop tail).Gives
    fun declarations ts => (declarationsOfTokens tail ts).map (declarations ++ ·) := by
  refine Loop.gives_of_computes (fun earlier ts => ?_) fun earlier ts next rest hturn => ?_
  · cases ts with
    | nil =>
        rw [declarationsOfTokens]
        simp [documentLoop, Except.map]
    | cons first rest =>
        rw [declarationsOfTokens, documentLoop]
        rcases declaration? tail first rest with _ | fault | read
        · rfl
        · rfl
        · dsimp only [Turn.attempt]
          cases declarationsOfTokens tail read.rest <;> simp [Except.map]
  · cases ts with
    | nil => cases hturn
    | cons first more =>
        rw [documentLoop] at hturn
        split at hturn
        · cases hturn
          exact skipTree_later first more
        · rename_i result hresult
          obtain ⟨read, rfl, hturn⟩ := Turn.exists_of_attempt hturn
          cases hturn
          exact ⟨(suffix_declaration? hresult).trans (tail_later first more).1, read.shorter⟩

/-! ## Documents -/

/-- The loops of the readers advance on every turn or are left, and they are left with what the
readers give. -/
structure LoopsEnd (tail : List Char) : Prop where
  members : memberLoop.Gives fun _ => skipMember
  initializers : initializerLoop.Gives fun _ => skipInitializer
  angles : anglesLoop.Gives skipAngles
  heritage : heritageLoop.Gives fun _ ts => (Source.heritage ts).map Taken.rest
  bodies : ∀ name, (bodyLoop tail name).Gives fun fields ts =>
    withEarlier fields (interfaceBody tail name ts)
  enumerations : ∀ enumeration, (enumLoop enumeration).Gives fun members ts =>
    withEarlier members (enumBody enumeration ts)
  documents : (documentLoop tail).Gives fun declarations ts =>
    (declarationsOfTokens tail ts).map (declarations ++ ·)

/-- What is said of a document whose tokens were read. -/
def reportOf (text : String) :
    Except Fault (List Declaration) → Except DocumentError (List Declaration) :=
  Except.mapError (Fault.report · text.toList)

/-- The readers advance, their loops end, and so every document has a result: the loop over its
tokens is left after at most one turn for each token and one more, and what it is left with is
reported. -/
theorem declarationsOfText_progress :
    (∀ tail, ReadersAdvance tail) ∧ (∀ tail, LoopsEnd tail)
      ∧ ∀ text : String, let document := Tokens.ofText text.toList
        ∃ turns result, turns ≤ document.tokens.length + 1
          ∧ (documentLoop document.tail).Ends [] document.tokens turns result
          ∧ declarationsOfText text = reportOf text result := by
  refine ⟨readersAdvance, fun tail => ?_, fun text => ?_⟩
  · exact ⟨gives_memberLoop, gives_initializerLoop, gives_anglesLoop, gives_heritageLoop,
      gives_bodyLoop tail, gives_enumLoop, gives_documentLoop tail⟩
  · intro document
    obtain ⟨turns, hturns, hends⟩ := (gives_documentLoop document.tail).ends [] document.tokens
    refine ⟨turns, _, hturns, hends, ?_⟩
    unfold declarationsOfText reportOf
    dsimp only
    cases declarationsOfTokens document.tail document.tokens <;> rfl

end Specimen.Source
