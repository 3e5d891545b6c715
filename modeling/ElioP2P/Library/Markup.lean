import ElioP2P.Library.Bytes

/-!
# Markup

A text of tags `<name>` with characters between them.  As `<` begins a tag and
stands nowhere else, searching the bytes for a tag finds the first tag of that
name.  Characters that would be markup are written as entities.
-/

namespace ElioP2P.Library

def tagText (name : Bytes) : Bytes := 60 :: (name ++ [62])

inductive Token where
  | tag (name : Bytes)
  | text (content : Bytes)
  deriving DecidableEq

namespace Token

def render : Token → Bytes
  | tag name => tagText name
  | text content => content

/-- No `<` but at the beginning of a tag, and no `>` in its name. -/
def WellFormed : Token → Prop
  | tag name => 60 ∉ name ∧ 62 ∉ name
  | text content => 60 ∉ content

instance (token : Token) : Decidable token.WellFormed :=
  match token with
  | tag name => inferInstanceAs (Decidable (60 ∉ name ∧ 62 ∉ name))
  | text content => inferInstanceAs (Decidable (60 ∉ content))

def close (name : Bytes) : Token := tag (47 :: name)

end Token

def renderTokens (tokens : List Token) : Bytes := tokens.flatMap Token.render

@[simp] theorem renderTokens_nil : renderTokens [] = [] := rfl

@[simp] theorem renderTokens_cons (token : Token) (tokens : List Token) :
    renderTokens (token :: tokens) = token.render ++ renderTokens tokens := rfl

@[simp] theorem renderTokens_append (tokens tokens' : List Token) :
    renderTokens (tokens ++ tokens') = renderTokens tokens ++ renderTokens tokens' :=
  List.flatMap_append

/-! ## Searching for a tag -/

theorem firstMatch_skip {front : Bytes} (hfront : 60 ∉ front) (pattern rest : Bytes) :
    firstMatch (60 :: pattern) (front ++ rest) =
      (firstMatch (60 :: pattern) rest).map (· + front.length) := by
  induction front with
  | nil => simp
  | cons b front ih =>
      simp only [List.mem_cons, not_or] at hfront
      have hhead : ((60 : UInt8) == b) = false := beq_eq_false_iff_ne.mpr hfront.1
      rw [List.cons_append, firstMatch, List.isPrefixOf_cons_cons, hhead, ih hfront.2]
      simp [Function.comp_def, Nat.add_assoc]

theorem firstMatch_skip_tag {name : Bytes} (hname : 60 ∉ name) {pattern rest : Bytes}
    (hno : ¬ 60 :: pattern <+: tagText name ++ rest) :
    firstMatch (60 :: pattern) (tagText name ++ rest) =
      (firstMatch (60 :: pattern) rest).map (· + (tagText name).length) := by
  have hinner : 60 ∉ name ++ [62] := by simp [hname]
  rw [tagText, List.cons_append, ← List.isPrefixOf_iff_prefix] at hno
  rw [tagText, List.cons_append, firstMatch, if_neg hno, firstMatch_skip hinner]
  simp [Function.comp_def, Nat.add_assoc]

theorem eq_of_tagText_start {name name' : Bytes} (hname : 62 ∉ name) (hname' : 62 ∉ name')
    {behind rest : Bytes} (h : tagText name ++ behind <+: tagText name' ++ rest) :
    name = name' := by
  obtain ⟨last, heq⟩ := h
  simp only [tagText, List.cons_append, List.append_assoc, List.cons.injEq, true_and,
    List.nil_append] at heq
  exact (append_first_inj hname hname' heq).1

theorem firstMatch_tokens {name : Bytes} (hname : 62 ∉ name) {before : List Token}
    (hwellFormed : ∀ token ∈ before, token.WellFormed) (hbefore : Token.tag name ∉ before)
    (behind rest : Bytes) :
    firstMatch (tagText name ++ behind) (renderTokens before ++ rest) =
      (firstMatch (tagText name ++ behind) rest).map (· + (renderTokens before).length) := by
  induction before with
  | nil => simp
  | cons token before ih =>
      simp only [List.mem_cons, not_or] at hbefore
      have hfirst := hwellFormed token List.mem_cons_self
      have hrest := ih (fun t ht => hwellFormed t (List.mem_cons_of_mem token ht)) hbefore.2
      have hstep : ∀ text, firstMatch (tagText name ++ behind) (token.render ++ text) =
          (firstMatch (tagText name ++ behind) text).map (· + token.render.length) := by
        intro text
        cases token with
        | text content => exact firstMatch_skip hfirst _ text
        | tag other =>
            refine firstMatch_skip_tag hfirst.1 fun hmatch => hbefore.1 ?_
            rw [eq_of_tagText_start hname hfirst.2 hmatch]
      rw [renderTokens_cons, List.append_assoc, hstep, hrest]
      simp [Function.comp_def, Nat.add_assoc, Nat.add_comm]

theorem firstMatch_tag {name : Bytes} (hname : 62 ∉ name) {before : List Token}
    (hwellFormed : ∀ token ∈ before, token.WellFormed) (hbefore : Token.tag name ∉ before)
    (rest : Bytes) :
    firstMatch (tagText name) (renderTokens before ++ (tagText name ++ rest)) =
      some (renderTokens before).length := by
  have h := firstMatch_tokens hname hwellFormed hbefore [] (tagText name ++ rest)
  rw [List.append_nil, firstMatch_append] at h
  rw [h]
  simp

theorem firstMatch_no_tag {name : Bytes} (hname : 62 ∉ name) {tokens : List Token}
    (hwellFormed : ∀ token ∈ tokens, token.WellFormed) (htokens : Token.tag name ∉ tokens)
    (behind : Bytes) :
    firstMatch (tagText name ++ behind) (renderTokens tokens) = none := by
  have h := firstMatch_tokens hname hwellFormed htokens behind []
  rw [List.append_nil] at h
  rw [h]
  rfl

theorem find_append (front rest pattern : Bytes) :
    find (front ++ rest) pattern front.length =
      (firstMatch pattern rest).map (· + front.length) := by
  rw [find, if_neg (by simp), List.drop_left]

theorem find_tag {name : Bytes} (hname : 62 ∉ name) {before : List Token}
    (hwellFormed : ∀ token ∈ before, token.WellFormed) (hbefore : Token.tag name ∉ before)
    (front rest : Bytes) :
    find (front ++ (renderTokens before ++ (tagText name ++ rest))) (tagText name) front.length =
      some ((renderTokens before).length + front.length) := by
  rw [find_append, firstMatch_tag hname hwellFormed hbefore, Option.map_some]

/-! ## Elements -/

abbrev writeElement (name : Bytes) (children rest : List Token) : List Token :=
  .tag name :: (children ++ .close name :: rest)

/-- The contents of the elements of a name, in order; such elements do not stand
inside of each other. -/
inductive Elements (name : Bytes) : List (List Token) → List Token → Prop
  | nil : Elements name [] []
  | element {children rest : List Token} {contents : List (List Token)}
      (hwellFormed : ∀ token ∈ children, token.WellFormed) (hopen : .tag name ∉ children)
      (hclose : .close name ∉ children) (hrest : Elements name contents rest) :
      Elements name (children :: contents) (writeElement name children rest)
  | other {token : Token} {rest : List Token} {contents : List (List Token)}
      (hwellFormed : token.WellFormed) (hopen : token ≠ .tag name) (hclose : token ≠ .close name)
      (hrest : Elements name contents rest) : Elements name contents (token :: rest)

theorem Elements.neutral {name : Bytes} {tokens : List Token} (h : Elements name [] tokens) :
    ∀ token ∈ tokens, token.WellFormed ∧ token ≠ .tag name ∧ token ≠ .close name := by
  induction tokens with
  | nil => exact fun token hmem => absurd hmem List.not_mem_nil
  | cons token tokens ih =>
      cases h with
      | other hwellFormed hopen hclose hrest =>
          intro t hmem
          rcases List.mem_cons.mp hmem with rfl | hmem
          · exact ⟨hwellFormed, hopen, hclose⟩
          · exact ih hrest t hmem

theorem Elements.split {name : Bytes} {children : List Token} {contents : List (List Token)}
    {tokens : List Token} (h : Elements name (children :: contents) tokens) :
    ∃ before after, tokens = before ++ writeElement name children after ∧
      (∀ token ∈ before, token.WellFormed ∧ token ≠ .tag name ∧ token ≠ .close name) ∧
      Elements name contents after := by
  induction tokens with
  | nil => cases h
  | cons token tokens ih =>
      cases h with
      | element _ _ _ hrest => exact ⟨[], _, rfl, fun t hmem => absurd hmem List.not_mem_nil, hrest⟩
      | other hwellFormed hopen hclose hrest =>
          obtain ⟨before, after, rfl, hbefore, hafter⟩ := ih hrest
          refine ⟨token :: before, after, rfl, fun t hmem => ?_, hafter⟩
          rcases List.mem_cons.mp hmem with rfl | hmem
          · exact ⟨hwellFormed, hopen, hclose⟩
          · exact hbefore t hmem

theorem Elements.length_le {name : Bytes} {contents : List (List Token)} {tokens : List Token}
    (h : Elements name contents tokens) : contents.length ≤ (renderTokens tokens).length := by
  induction h with
  | nil => exact Nat.zero_le _
  | other _ _ _ _ ih =>
      rw [renderTokens_cons, List.length_append]
      omega
  | element _ _ _ _ ih =>
      simp only [renderTokens_cons, renderTokens_append, List.length_append, List.length_cons,
        Token.render, tagText]
      omega

theorem Elements.others {name : Bytes} {front rest : List Token} {contents : List (List Token)}
    (hfront : ∀ token ∈ front, token.WellFormed ∧ token ≠ .tag name ∧ token ≠ .close name)
    (hrest : Elements name contents rest) : Elements name contents (front ++ rest) := by
  induction front with
  | nil => exact hrest
  | cons token front ih =>
      obtain ⟨hwellFormed, hopen, hclose⟩ := hfront token List.mem_cons_self
      exact .other hwellFormed hopen hclose
        (ih fun t ht => hfront t (List.mem_cons_of_mem token ht))

theorem Elements.none {name : Bytes} {tokens : List Token}
    (htokens : ∀ token ∈ tokens, token.WellFormed ∧ token ≠ .tag name ∧ token ≠ .close name) :
    Elements name [] tokens := by
  have h := Elements.others htokens .nil
  rwa [List.append_nil] at h

theorem Elements.wellFormed {name : Bytes} {contents : List (List Token)} {tokens : List Token}
    (h : Elements name contents tokens) :
    ∀ children ∈ contents, ∀ token ∈ children, token.WellFormed := by
  induction h with
  | nil => exact fun children hmem => absurd hmem List.not_mem_nil
  | other _ _ _ _ ih => exact ih
  | element hwellFormed _ _ _ ih =>
      intro children hmem
      rcases List.mem_cons.mp hmem with rfl | hmem
      · exact hwellFormed
      · exact ih children hmem

/-- The first element of a name has this text, with characters that would be
markup written in one of the given ways. -/
def HasText (written : Bytes → Bytes → Prop) (name value : Bytes) (tokens : List Token) : Prop :=
  ∃ before escaped after, tokens = before ++ .tag name :: .text escaped :: .close name :: after ∧
    .tag name ∉ before ∧ written value escaped

theorem HasText.cons {written : Bytes → Bytes → Prop} {name value : Bytes} {tokens : List Token}
    (h : HasText written name value tokens) {token : Token} (hne : token ≠ .tag name) :
    HasText written name value (token :: tokens) := by
  obtain ⟨before, escaped, after, rfl, hbefore, hwritten⟩ := h
  refine ⟨token :: before, escaped, after, rfl, ?_, hwritten⟩
  rw [List.mem_cons, not_or]
  exact ⟨hne.symm, hbefore⟩

/-! ## Entities -/

abbrev Entities := List (Bytes × UInt8)

/-- A text with some characters written as entities, `&` and `<` among them. -/
inductive Escapes (entities : Entities) : Bytes → Bytes → Prop
  | nil : Escapes entities [] []
  | plain {b : UInt8} {value escaped : Bytes} (hamp : b ≠ 38) (htag : b ≠ 60)
      (hrest : Escapes entities value escaped) : Escapes entities (b :: value) (b :: escaped)
  | entity {entity : Bytes} {b : UInt8} {value escaped : Bytes} (hentity : (entity, b) ∈ entities)
      (hrest : Escapes entities value escaped) :
      Escapes entities (b :: value) (entity ++ escaped)

theorem Escapes.refl (entities : Entities) {value : Bytes} (h : 38 ∉ value ∧ 60 ∉ value) :
    Escapes entities value value := by
  induction value with
  | nil => exact .nil
  | cons b value ih =>
      simp only [List.mem_cons, not_or] at h
      exact .plain (Ne.symm h.1.1) (Ne.symm h.2.1) (ih ⟨h.1.2, h.2.2⟩)

theorem Escapes.notMem {entities : Entities} (hentities : ∀ entry ∈ entities, 60 ∉ entry.1)
    {value escaped : Bytes} (h : Escapes entities value escaped) : 60 ∉ escaped := by
  induction h with
  | nil => exact List.not_mem_nil
  | plain _ htag _ ih =>
      rw [List.mem_cons, not_or]
      exact ⟨htag.symm, ih⟩
  | entity hentity _ ih =>
      rw [List.mem_append, not_or]
      exact ⟨hentities _ hentity, ih⟩

def escapeWith (entities : Entities) (value : Bytes) : Bytes :=
  value.flatMap fun b => ((entities.find? fun entry => entry.2 = b).map Prod.fst).getD [b]

theorem escapes_escapeWith {entities : Entities} (hamp : 38 ∈ entities.map Prod.snd)
    (htag : 60 ∈ entities.map Prod.snd) (value : Bytes) :
    Escapes entities value (escapeWith entities value) := by
  induction value with
  | nil => exact .nil
  | cons b value ih =>
      rw [escapeWith, List.flatMap_cons]
      cases hfind : entities.find? fun entry => entry.2 = b with
      | none =>
          have hno : b ∉ entities.map Prod.snd := by
            intro hmem
            obtain ⟨entry, hentry, rfl⟩ := List.mem_map.mp hmem
            have hnot := List.find?_eq_none.mp hfind entry hentry
            simp at hnot
          refine .plain ?_ ?_ ih
          · rintro rfl
            exact hno hamp
          · rintro rfl
            exact hno htag
      | some entry =>
          have hb : entry.2 = b := by simpa using List.find?_some hfind
          have hmem := List.mem_of_find?_eq_some hfind
          subst hb
          exact .entity hmem ih

/-! ## Fields -/

def leaf (entities : Entities) (field : Bytes × Bytes) : List Token :=
  [.tag field.1, .text (escapeWith entities field.2), .close field.1]

theorem hasText_leaves {entities : Entities} (hamp : 38 ∈ entities.map Prod.snd)
    (htag : 60 ∈ entities.map Prod.snd) {fields : List (Bytes × Bytes)}
    (hnodup : (fields.map Prod.fst).Nodup) {name value : Bytes} (hname : name.head? ≠ some 47)
    (hmem : (name, value) ∈ fields) :
    HasText (Escapes entities) name value (fields.flatMap (leaf entities)) := by
  induction fields with
  | nil => cases hmem
  | cons field fields ih =>
      rw [List.map_cons, List.nodup_cons] at hnodup
      rw [List.flatMap_cons]
      rcases List.mem_cons.mp hmem with rfl | hrest
      · exact ⟨[], _, _, rfl, List.not_mem_nil, escapes_escapeWith hamp htag value⟩
      · have hne : field.1 ≠ name := by
          rintro rfl
          exact hnodup.1 (List.mem_map.mpr ⟨_, hrest, rfl⟩)
        have hclose : Token.close field.1 ≠ .tag name := by
          intro heq
          refine hname ?_
          rw [← Token.tag.inj heq]
          rfl
        exact (((ih hnodup.2 hrest).cons hclose).cons Token.noConfusion).cons fun heq =>
          hne (Token.tag.inj heq)

end ElioP2P.Library
