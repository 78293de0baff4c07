import TypedClient.Proofs.Shape.Parts
import TypedClient.Proofs.TypeScript.Tokens
import TypedClient.TypeScript.Print

/-!
# The grammar of types

A type is a list of alternatives between bars, an alternative is a list of factors between
ampersands, and a factor is an operand: a keyword, a literal, a name with or without
arguments, an object, a tuple, a type in parentheses, or an operand with brackets behind it.
So brackets bind tighter than ampersands, and ampersands tighter than bars.

The grammar leaves no choice: a reader that goes over the tokens once, with a stack of what
is still open, follows every derivation, so a list of tokens spells one type at most.
-/

namespace TypedClient.TypeScript

/-- The words that stand for a type of their own. A union without members is no value. -/
def wordTypes : List (String × TypeNode) :=
  [("any", .keyword .any), ("void", .keyword .void), ("null", .keyword .null),
   ("undefined", .keyword .undefined), ("boolean", .keyword .boolean),
   ("number", .keyword .number), ("string", .keyword .string), ("never", .union []),
   ("true", .literal (.bool true)), ("false", .literal (.bool false))]

/-- The words that name no type. -/
def typeWords : List String := "readonly" :: wordTypes.map Prod.fst

namespace TypeNode

/-- The type of a list of alternatives. -/
def ofAlternatives : List TypeNode → TypeNode
  | [t] => t
  | ts => .union ts

/-- The type of a list of factors. -/
def ofFactors : List TypeNode → TypeNode
  | [] => any
  | [t] => t
  | ts => .intersection ts

end TypeNode

/-- What tokens can spell. -/
inductive Phrase where
  /-- A type that binds tighter than any sign. -/
  | operand (t : TypeNode)
  /-- Types between ampersands. -/
  | factors (ts : List TypeNode)
  /-- Types between bars. -/
  | alternatives (ts : List TypeNode)
  /-- Types between commas. -/
  | elements (ts : List TypeNode)
  /-- Members of an object. -/
  | members (ms : List (Field TypeNode))

/-- Tokens spell what comes before the type of a member. -/
inductive SpellsHead : List Token → Field Unit → Prop where
  /-- A quoted name, optional when a question mark follows. -/
  | named (name : String) (optional readonly : Bool) :
      SpellsHead ((if readonly then [.word "readonly"] else []) ++
          .text name :: (if optional then [.mark '?'] else []) ++ [.mark ':'])
        { key := .named name, value := (), optional, readonly }
  /-- An index signature. -/
  | wildcard (word : String) (readonly : Bool) :
      SpellsHead ((if readonly then [.word "readonly"] else []) ++
          [.mark '[', .word word, .mark ':', .word "string", .mark ']', .mark ':'])
        { key := .wildcard, value := (), readonly }

/-- Tokens spell a phrase. -/
inductive Spells : List Token → Phrase → Prop where
  /-- A word that stands for a type. -/
  | word {w : String} {t : TypeNode} (h : (w, t) ∈ wordTypes) : Spells [.word w] (.operand t)
  /-- A quoted text. -/
  | text (value : String) : Spells [.text value] (.operand (.literal (.string value)))
  /-- A number. -/
  | number (value : Number) : Spells [.number value] (.operand (.literal (.number value)))
  /-- A name. -/
  | name {w : String} (h : w ∉ typeWords) : Spells [.word w] (.operand (.reference w []))
  /-- A name with arguments. -/
  | generic {w : String} {ts : List Token} {arguments : List TypeNode} (h : w ∉ typeWords)
      (harguments : Spells ts (.elements arguments)) :
      Spells (.word w :: .mark '<' :: (ts ++ [.mark '>'])) (.operand (.reference w arguments))
  /-- A type in parentheses. -/
  | group {ts : List Token} {alternatives : List TypeNode}
      (h : Spells ts (.alternatives alternatives)) :
      Spells (.mark '(' :: (ts ++ [.mark ')'])) (.operand (.ofAlternatives alternatives))
  /-- A tuple without members. -/
  | unit : Spells [.mark '[', .mark ']'] (.operand (.tuple []))
  /-- A tuple. -/
  | tuple {ts : List Token} {elements : List TypeNode} (h : Spells ts (.elements elements)) :
      Spells (.mark '[' :: (ts ++ [.mark ']'])) (.operand (.tuple elements))
  /-- An object type. -/
  | object {ts : List Token} {members : List (Field TypeNode)}
      (h : Spells ts (.members members)) :
      Spells (.mark '\x7b' :: (ts ++ [.mark '\x7d'])) (.operand (.object members))
  /-- An array type. -/
  | array {ts : List Token} {t : TypeNode} (h : Spells ts (.operand t)) :
      Spells (ts ++ [.mark '[', .mark ']']) (.operand (.array t))
  /-- One factor. -/
  | factor {ts : List Token} {t : TypeNode} (h : Spells ts (.operand t)) :
      Spells ts (.factors [t])
  /-- Factors on both sides of an ampersand. -/
  | both {ts us : List Token} {left right : List TypeNode} (h : Spells ts (.factors left))
      (h' : Spells us (.factors right)) :
      Spells (ts ++ .mark '&' :: us) (.factors (left ++ right))
  /-- One alternative. -/
  | alternative {ts : List Token} {factors : List TypeNode} (h : Spells ts (.factors factors)) :
      Spells ts (.alternatives [.ofFactors factors])
  /-- Alternatives on both sides of a bar. -/
  | either {ts us : List Token} {left right : List TypeNode} (h : Spells ts (.alternatives left))
      (h' : Spells us (.alternatives right)) :
      Spells (ts ++ .mark '|' :: us) (.alternatives (left ++ right))
  /-- One element. -/
  | element {ts : List Token} {alternatives : List TypeNode}
      (h : Spells ts (.alternatives alternatives)) :
      Spells ts (.elements [.ofAlternatives alternatives])
  /-- Elements on both sides of a comma. -/
  | comma {ts us : List Token} {left right : List TypeNode} (h : Spells ts (.elements left))
      (h' : Spells us (.elements right)) :
      Spells (ts ++ .mark ',' :: us) (.elements (left ++ right))
  /-- No member. -/
  | empty : Spells [] (.members [])
  /-- One member in front of others. -/
  | member {head ts us : List Token} {f : Field Unit} {alternatives : List TypeNode}
      {members : List (Field TypeNode)} (hhead : SpellsHead head f)
      (h : Spells ts (.alternatives alternatives)) (h' : Spells us (.members members)) :
      Spells (head ++ ts ++ .mark ';' :: us)
        (.members (f.mapValue (fun _ => .ofAlternatives alternatives) :: members))

/-- A text is read as a type. -/
def IsReading (text : String) (t : TypeNode) : Prop :=
  ∃ tokens alternatives, tokens? text.toList = some tokens ∧
    Spells tokens (.alternatives alternatives) ∧ t = .ofAlternatives alternatives

namespace Reader

/-- What has been read of a type whose last operand is not yet complete. -/
structure Part where
  /-- The alternatives before the last bar. -/
  alternatives : List TypeNode
  /-- The factors behind it, before the last ampersand. -/
  factors : List TypeNode

/-- Nothing has been read. -/
def Part.empty : Part := ⟨[], []⟩

/-- The alternatives once the last operand is complete. -/
def Part.close (p : Part) (t : TypeNode) : List TypeNode :=
  p.alternatives ++ [.ofFactors (p.factors ++ [t])]

/-- What is open around a type. -/
inductive Frame where
  /-- Parentheses. -/
  | group
  /-- A tuple, behind some elements. -/
  | tuple (elements : List TypeNode)
  /-- The arguments of a name, behind some of them. -/
  | arguments (name : String) (arguments : List TypeNode)
  /-- An object, behind some members. -/
  | object (members : List (Field TypeNode))
  /-- A member of an object, behind others. -/
  | member (members : List (Field TypeNode)) (head : Field Unit)

/-- What the reader expects. -/
inductive Mode where
  /-- An operand. -/
  | operand
  /-- What may follow an operand. -/
  | operator (t : TypeNode)
  /-- The closing bracket of an array type. -/
  | bracket (t : TypeNode)
  /-- More of what comes before the type of a member. -/
  | head (tokens : List Token)

end Reader

/-- A reader of types. -/
structure Reader where
  /-- What is open, with what has been read around it, the innermost first. -/
  stack : List (Reader.Part × Reader.Frame)
  /-- What has been read of the innermost type. -/
  part : Reader.Part
  /-- What is expected. -/
  mode : Reader.Mode

namespace Reader

/-- Go on with what is open inside. -/
def push (r : Reader) (frame : Frame) (mode : Mode) : Reader :=
  ⟨(r.part, frame) :: r.stack, .empty, mode⟩

/-- Read an operand, or what opens one. -/
def readOperand (r : Reader) : Token → Option Reader
  | .word w =>
    match wordTypes.lookup w with
    | some t => some { r with mode := .operator t }
    | none => if w ∈ typeWords then none else some { r with mode := .operator (.reference w []) }
  | .text value => some { r with mode := .operator (.literal (.string value)) }
  | .number value => some { r with mode := .operator (.literal (.number value)) }
  | .mark '(' => some (r.push .group .operand)
  | .mark '[' => some (r.push (.tuple []) .operand)
  | .mark '\x7b' => some (r.push (.object []) (.head []))
  | .mark ']' =>
    match r with
    | ⟨(part, .tuple []) :: stack, ⟨[], []⟩, _⟩ => some ⟨stack, part, .operator (.tuple [])⟩
    | _ => none
  | .mark _ => none

/-- Read the mark behind a complete type inside of what is open. -/
def readClose (stack : List (Part × Frame)) (part : Part) (t : TypeNode) :
    Frame → Char → Option Reader
  | .group, ')' => some ⟨stack, part, .operator t⟩
  | .tuple elements, ',' => some ⟨(part, .tuple (elements ++ [t])) :: stack, .empty, .operand⟩
  | .tuple elements, ']' => some ⟨stack, part, .operator (.tuple (elements ++ [t]))⟩
  | .arguments name ts, ',' =>
    some ⟨(part, .arguments name (ts ++ [t])) :: stack, .empty, .operand⟩
  | .arguments name ts, '>' => some ⟨stack, part, .operator (.reference name (ts ++ [t]))⟩
  | .member members head, ';' =>
    some ⟨(part, .object (members ++ [head.mapValue fun _ => t])) :: stack, .empty, .head []⟩
  | _, _ => none

/-- Read what follows an operand. -/
def readOperator (r : Reader) (t : TypeNode) : Token → Option Reader
  | .mark '[' => some { r with mode := .bracket t }
  | .mark '<' =>
    match t with
    | .reference name [] => some (r.push (.arguments name []) .operand)
    | _ => none
  | .mark '&' =>
    some { r with part := ⟨r.part.alternatives, r.part.factors ++ [t]⟩, mode := .operand }
  | .mark '|' => some { r with part := ⟨r.part.close t, []⟩, mode := .operand }
  | .mark c =>
    match r.stack with
    | (part, frame) :: stack => readClose stack part (.ofAlternatives (r.part.close t)) frame c
    | [] => none
  | _ => none

/-- The key of a member. -/
def key? : List Token → Option (Field Unit)
  | [.text name] => some { key := .named name, value := () }
  | [.text name, .mark '?'] => some { key := .named name, value := (), optional := true }
  | [.mark '[', .word _, .mark ':', .word "string", .mark ']'] =>
    some { key := .wildcard, value := () }
  | _ => none

/-- What comes before the type of a member. -/
def head? : List Token → Option (Field Unit)
  | .word "readonly" :: tokens => (key? tokens).map fun f => { f with readonly := true }
  | tokens => key? tokens

/-- Read a token before the type of a member, or the end of the object. -/
def readHead (r : Reader) (tokens : List Token) (token : Token) : Option Reader :=
  match r.stack with
  | (part, .object members) :: stack =>
    if token = .mark '\x7d' then
      if tokens.isEmpty then some ⟨stack, part, .operator (.object members)⟩ else none
    else if token = .mark ':' then
      match head? tokens with
      | some f => some ⟨(part, .member members f) :: stack, .empty, .operand⟩
      | none => some { r with mode := .head (tokens ++ [token]) }
    else some { r with mode := .head (tokens ++ [token]) }
  | _ => none

/-- Read one token. -/
def step (r : Reader) (token : Token) : Option Reader :=
  match r.mode with
  | .operand => r.readOperand token
  | .operator t => r.readOperator t token
  | .bracket t => if token = .mark ']' then some { r with mode := .operator (.array t) } else none
  | .head tokens => r.readHead tokens token

/-- Read tokens one after another. -/
def run (tokens : List Token) (r : Reader) : Option Reader := tokens.foldlM step r

/-- The type that a list of tokens spells. -/
def type? (tokens : List Token) : Option TypeNode :=
  (run tokens ⟨[], .empty, .operand⟩).bind fun r =>
    match r.stack, r.mode with
    | [], .operator t => some (.ofAlternatives (r.part.close t))
    | _, _ => none

section Runs

variable {tokens others : List Token} {token : Token} {r r' : Reader}

/-- A token that is read leaves the others to be read. -/
theorem run_cons (h : r.step token = some r') : run (token :: tokens) r = run tokens r' := by
  rw [run, List.foldlM_cons, h]
  rfl

/-- Tokens that are read leave those behind them to be read. -/
theorem run_append (h : run tokens r = some r') : run (tokens ++ others) r = run others r' := by
  rw [run] at h
  rw [run, List.foldlM_append, h]
  rfl

/-- A word of its own is looked up. -/
theorem lookup_wordTypes {w : String} {t : TypeNode} (h : (w, t) ∈ wordTypes) :
    wordTypes.lookup w = some t := by
  simp only [wordTypes, List.mem_cons, Prod.mk.injEq, List.not_mem_nil, or_false] at h
  rcases h with ⟨rfl, rfl⟩ | ⟨rfl, rfl⟩ | ⟨rfl, rfl⟩ | ⟨rfl, rfl⟩ | ⟨rfl, rfl⟩ | ⟨rfl, rfl⟩ |
    ⟨rfl, rfl⟩ | ⟨rfl, rfl⟩ | ⟨rfl, rfl⟩ | ⟨rfl, rfl⟩ <;> rfl

/-- A word that is not one of these is a name. -/
theorem step_name {w : String} (h : w ∉ typeWords) (stack : List (Part × Frame)) (part : Part) :
    step ⟨stack, part, .operand⟩ (.word w) = some ⟨stack, part, .operator (.reference w [])⟩ := by
  have hlookup : wordTypes.lookup w = none := by
    rw [List.lookup_eq_none_iff]
    intro p hp
    have hne : p.1 ≠ w := by
      rintro rfl
      exact h (List.mem_cons_of_mem _ (List.mem_map_of_mem hp))
    simpa using hne.symm
  simp [step, readOperand, hlookup, h]

/-- What is open may list elements: behind a comma it goes on with one element more. -/
def IsListing (frame : List TypeNode → Frame) : Prop :=
  ∀ stack part t elements, readClose stack part t (frame elements) ',' =
    some ⟨(part, frame (elements ++ [t])) :: stack, .empty, .operand⟩

/-- What comes before the type of a member is read up to its colon. -/
theorem run_head {head : List Token} {f : Field Unit} (h : SpellsHead head f)
    (stack : List (Part × Frame)) (part : Part) (members : List (Field TypeNode)) :
    run head ⟨(part, .object members) :: stack, .empty, .head []⟩ =
      some ⟨(part, .member members f) :: stack, .empty, .operand⟩ := by
  cases h with
  | named name optional readonly => cases optional <;> cases readonly <;> rfl
  | wildcard word readonly => cases readonly <;> rfl

end Runs

end Reader

open Reader in
/-- What the reader does along the tokens of a phrase, whatever is open around it. -/
def Phrase.IsFollowed (tokens : List Token) : Phrase → Prop
  | .operand t => ∀ stack part,
    run tokens ⟨stack, part, .operand⟩ = some ⟨stack, part, .operator t⟩
  | .factors ts => ∀ stack alternatives factors, ∃ before t, before ++ [t] = factors ++ ts ∧
    run tokens ⟨stack, ⟨alternatives, factors⟩, .operand⟩ =
      some ⟨stack, ⟨alternatives, before⟩, .operator t⟩
  | .alternatives ts => ∀ stack alternatives, ∃ part t, Part.close part t = alternatives ++ ts ∧
    run tokens ⟨stack, ⟨alternatives, []⟩, .operand⟩ = some ⟨stack, part, .operator t⟩
  | .elements ts => ∀ stack part frame elements, IsListing frame → ∃ before inner t,
    before ++ [.ofAlternatives (Part.close inner t)] = elements ++ ts ∧
      run tokens ⟨(part, frame elements) :: stack, .empty, .operand⟩ =
        some ⟨(part, frame before) :: stack, inner, .operator t⟩
  | .members ms => ∀ stack part members,
    run tokens ⟨(part, .object members) :: stack, .empty, .head []⟩ =
      some ⟨(part, .object (members ++ ms)) :: stack, .empty, .head []⟩

open Reader in
/-- The reader follows every derivation. -/
theorem Spells.isFollowed {tokens : List Token} {phrase : Phrase} (h : Spells tokens phrase) :
    phrase.IsFollowed tokens := by
  induction h with
  | @word w t h =>
    intro stack part
    have hlookup : wordTypes.lookup w = some t := lookup_wordTypes h
    exact run_cons (by simp [step, readOperand, hlookup])
  | text value => exact fun stack part => rfl
  | number value => exact fun stack part => rfl
  | @name w h =>
    intro stack part
    exact run_cons (step_name h stack part)
  | @generic w ts arguments h _ ih =>
    intro stack part
    obtain ⟨before, inner, t, hbefore, hrun⟩ :=
      ih stack part (.arguments w) [] fun _ _ _ _ => rfl
    calc run _ _
        = run (.mark '<' :: (ts ++ [.mark '>'])) ⟨stack, part, .operator (.reference w [])⟩ :=
          run_cons (step_name h stack part)
      _ = run (ts ++ [.mark '>']) ⟨(part, .arguments w []) :: stack, .empty, .operand⟩ :=
          run_cons rfl
      _ = run [.mark '>'] ⟨(part, .arguments w before) :: stack, inner, .operator t⟩ :=
          run_append hrun
      _ = some ⟨stack, part, .operator (.reference w arguments)⟩ := by
          rw [List.nil_append] at hbefore
          rw [← hbefore]
          rfl
  | @group ts alternatives _ ih =>
    intro stack part
    obtain ⟨inner, t, hclose, hrun⟩ := ih ((part, .group) :: stack) []
    calc run _ _
        = run (ts ++ [.mark ')']) ⟨(part, .group) :: stack, .empty, .operand⟩ := run_cons rfl
      _ = run [.mark ')'] ⟨(part, .group) :: stack, inner, .operator t⟩ := run_append hrun
      _ = some ⟨stack, part, .operator (.ofAlternatives alternatives)⟩ := by
          rw [List.nil_append] at hclose
          rw [← hclose]
          rfl
  | unit => exact fun stack part => rfl
  | @tuple ts elements _ ih =>
    intro stack part
    obtain ⟨before, inner, t, hbefore, hrun⟩ := ih stack part .tuple [] fun _ _ _ _ => rfl
    calc run _ _
        = run (ts ++ [.mark ']']) ⟨(part, .tuple []) :: stack, .empty, .operand⟩ := run_cons rfl
      _ = run [.mark ']'] ⟨(part, .tuple before) :: stack, inner, .operator t⟩ := run_append hrun
      _ = some ⟨stack, part, .operator (.tuple elements)⟩ := by
          rw [List.nil_append] at hbefore
          rw [← hbefore]
          rfl
  | @object ts members _ ih =>
    intro stack part
    calc run _ _
        = run (ts ++ [.mark '\x7d']) ⟨(part, .object []) :: stack, .empty, .head []⟩ :=
          run_cons rfl
      _ = run [.mark '\x7d'] ⟨(part, .object ([] ++ members)) :: stack, .empty, .head []⟩ :=
          run_append (ih stack part [])
      _ = some ⟨stack, part, .operator (.object members)⟩ := rfl
  | @array ts t _ ih =>
    intro stack part
    exact run_append (ih stack part)
  | @factor ts t _ ih =>
    intro stack alternatives factors
    exact ⟨factors, t, rfl, ih _ _⟩
  | @both ts us left right _ _ ih ih' =>
    intro stack alternatives factors
    obtain ⟨before, t, hbefore, hrun⟩ := ih stack alternatives factors
    obtain ⟨before', t', hbefore', hrun'⟩ := ih' stack alternatives (factors ++ left)
    refine ⟨before', t', by rw [hbefore', List.append_assoc], ?_⟩
    rw [← hbefore] at hrun'
    exact (run_append hrun).trans ((run_cons rfl).trans hrun')
  | @alternative ts factors _ ih =>
    intro stack alternatives
    obtain ⟨before, t, hbefore, hrun⟩ := ih stack alternatives []
    exact ⟨⟨alternatives, before⟩, t, by rw [Part.close, hbefore]; rfl, hrun⟩
  | @either ts us left right _ _ ih ih' =>
    intro stack alternatives
    obtain ⟨inner, t, hclose, hrun⟩ := ih stack alternatives
    obtain ⟨inner', t', hclose', hrun'⟩ := ih' stack (alternatives ++ left)
    refine ⟨inner', t', by rw [hclose', List.append_assoc], ?_⟩
    rw [← hclose] at hrun'
    exact (run_append hrun).trans ((run_cons rfl).trans hrun')
  | @element ts alternatives _ ih =>
    intro stack part frame elements hframe
    obtain ⟨inner, t, hclose, hrun⟩ := ih ((part, frame elements) :: stack) []
    exact ⟨elements, inner, t, by rw [hclose, List.nil_append], hrun⟩
  | @comma ts us left right _ _ ih ih' =>
    intro stack part frame elements hframe
    obtain ⟨before, inner, t, hbefore, hrun⟩ := ih stack part frame elements hframe
    obtain ⟨before', inner', t', hbefore', hrun'⟩ := ih' stack part frame (elements ++ left) hframe
    refine ⟨before', inner', t', by rw [hbefore', List.append_assoc], ?_⟩
    have hcomma : step ⟨(part, frame before) :: stack, inner, .operator t⟩ (.mark ',') =
        some ⟨(part, frame (elements ++ left)) :: stack, .empty, .operand⟩ := by
      rw [← hbefore]
      exact hframe stack part _ before
    exact (run_append hrun).trans ((run_cons hcomma).trans hrun')
  | empty => exact fun stack part members => by simp [run]
  | @member head ts us f alternatives members hhead _ _ ih ih' =>
    intro stack part before
    obtain ⟨inner, t, hclose, hrun⟩ := ih ((part, .member before f) :: stack) []
    have hrest := ih' stack part (before ++ [f.mapValue fun _ => .ofAlternatives alternatives])
    rw [List.append_assoc, List.singleton_append] at hrest
    rw [List.append_assoc]
    refine (run_append (run_head hhead stack part before)).trans ((run_append hrun).trans ?_)
    rw [List.nil_append] at hclose
    rw [← hclose] at hrest ⊢
    exact (run_cons rfl).trans hrest

/-- What tokens spell is what the reader finds. -/
theorem Spells.reads {tokens : List Token} {ts : List TypeNode}
    (h : Spells tokens (.alternatives ts)) :
    Reader.type? tokens = some (.ofAlternatives ts) := by
  obtain ⟨part, t, hclose, hrun⟩ := h.isFollowed [] []
  rw [List.nil_append] at hclose
  rw [Reader.type?, Reader.Part.empty, hrun, Option.bind_some, ← hclose]

/-- A list of tokens spells one type at most. -/
theorem Spells.unique {tokens : List Token} {left right : List TypeNode}
    (h : Spells tokens (.alternatives left)) (h' : Spells tokens (.alternatives right)) :
    TypeNode.ofAlternatives left = TypeNode.ofAlternatives right :=
  Option.some.inj (h.reads.symm.trans h'.reads)

/-- Brackets bind tighter than ampersands, and ampersands tighter than bars. -/
example : Reader.type?
    [.word "A", .mark '|', .word "B", .mark '&', .word "C", .mark '[', .mark ']'] =
    some (.union [.named "A", .intersection [.named "B", .array (.named "C")]]) := rfl

/-- A text is read as one type at most. -/
theorem IsReading.unique {text : String} {t u : TypeNode} (h : IsReading text t)
    (h' : IsReading text u) : t = u := by
  obtain ⟨tokens, left, htokens, hleft, rfl⟩ := h
  obtain ⟨others, right, hothers, hright, rfl⟩ := h'
  obtain rfl := Option.some.inj (htokens.symm.trans hothers)
  exact hleft.unique hright

end TypedClient.TypeScript
