import CircuitSynthesis.Yaml.Event

/-!
# The grammar of documents

A pushdown machine reads the tokens of a text that holds one document at most. Its stack tells what is awaited in the
collections that are open; a step takes the innermost of them and yields one event. Where the tokens break the rules, the
events so far are what the text holds.

The grammar is that of the parser in `serde_yaml_ng`.
-/

namespace CircuitSynthesis.Yaml

/-- What is awaited in a collection that is open. -/
inductive Awaited where
  /-- An entry of a block sequence, or its end. -/
  | blockEntry
  /-- An entry of a sequence at the column of its key, or its end. -/
  | levelEntry
  /-- A key of a block mapping, or its end. -/
  | blockKey
  /-- The value of a key in a block mapping. -/
  | blockValue
  /-- An entry in brackets, the first or a later one, or the closing bracket. -/
  | flowEntry (isFirst : Bool)
  /-- The key of a pair that is an entry in brackets. -/
  | pairKey
  /-- The value of such a pair. -/
  | pairValue
  /-- The end of such a pair. -/
  | pairEnd
  /-- A key in braces, the first or a later one, or the closing brace. -/
  | flowKey (isFirst : Bool)
  /-- The value of a key in braces. -/
  | flowValue
  /-- The missing value of a node in braces that no colon follows. -/
  | noValue
  deriving DecidableEq

/-- An event, what is awaited after it, and the tokens that are left. -/
abbrev Move := Event × List Awaited × List Token

namespace Grammar

/-- What tag handles stand for where no directive says otherwise. -/
def standardHandles : List (String × String) := [("!", "!"), ("!!", "tag:yaml.org,2002:")]

/-- The full form of a tag. -/
def fullTag? (handles : List (String × String)) (handle suffix : String) : Option String :=
  if handle.isEmpty then some suffix else (handles.lookup handle).map (· ++ suffix)

/-- What stands in front of a node. -/
structure Properties where
  anchor : Option String
  /-- Its tag as handle and suffix. -/
  tag : Option (String × String)

/-- The anchor and the tag in front, in either order. -/
def properties (tokens : List Token) : Properties × List Token :=
  match tokens with
  | ⟨.anchor name, _⟩ :: ⟨.tag handle suffix, _⟩ :: rest => (⟨some name, some (handle, suffix)⟩, rest)
  | ⟨.tag handle suffix, _⟩ :: ⟨.anchor name, _⟩ :: rest => (⟨some name, some (handle, suffix)⟩, rest)
  | ⟨.anchor name, _⟩ :: rest => (⟨some name, none⟩, rest)
  | ⟨.tag handle suffix, _⟩ :: rest => (⟨none, some (handle, suffix)⟩, rest)
  | _ => (⟨none, none⟩, tokens)

/-- The node in front. Block collections are admitted where `block` says so, and a sequence at the column of its key where
`level` does. A node with an anchor or a tag may be empty. -/
def node? (handles : List (String × String)) (block level : Bool) (stack : List Awaited) (tokens : List Token) :
    Option Move :=
  match tokens with
  | [] => none
  | ⟨.alias name, _⟩ :: rest => some (.alias name, stack, rest)
  | first :: _ => do
    let (p, rest) := properties tokens
    let tag ← p.tag.mapM fun (handle, suffix) => fullTag? handles handle suffix
    let next ← rest.head?
    let after := rest.drop 1
    match next.kind, block, level with
    | .blockEntry, _, true => return (.sequenceStart p.anchor, .levelEntry :: stack, rest)
    | .scalar style text, _, _ =>
      return (.scalar p.anchor ⟨text, style, if tag == some "!" then none else tag, first.mark⟩, stack, after)
    | .flowSequenceStart, _, _ => return (.sequenceStart p.anchor, .flowEntry true :: stack, after)
    | .flowMappingStart, _, _ => return (.mappingStart p.anchor, .flowKey true :: stack, after)
    | .blockSequenceStart, true, _ => return (.sequenceStart p.anchor, .blockEntry :: stack, after)
    | .blockMappingStart, true, _ => return (.mappingStart p.anchor, .blockKey :: stack, after)
    | _, _, _ =>
      if p.anchor.isSome || tag.isSome then return (.scalar p.anchor ⟨"", .plain, tag, first.mark⟩, stack, rest)
      else none

/-- The node in front, which is missing where one of the given tokens stands. -/
def nodeBefore? (handles : List (String × String)) (ends : List TokenKind) (block level : Bool) (stack : List Awaited)
    (tokens : List Token) : Option Move := do
  let next ← tokens.head?
  if next.kind ∈ ends then return (.missing next.mark, stack, tokens)
  else node? handles block level stack tokens

/-- What follows the comma before an entry that is not the first. -/
def afterComma? (isFirst : Bool) (ending : TokenKind) (tokens : List Token) : Option (List Token) :=
  match tokens with
  | [] => none
  | t :: rest => if isFirst || t.kind = ending then some tokens else if t.kind = .flowEntry then some rest else none

/-- One step, which reads what is awaited in the innermost collection. The key of a pair in brackets that is missing takes
the token after it along. -/
def step? (handles : List (String × String)) (awaited : Awaited) (stack : List Awaited) (tokens : List Token) :
    Option Move :=
  match awaited with
  | .blockEntry =>
    match tokens with
    | ⟨.blockEntry, _⟩ :: rest => nodeBefore? handles [.blockEntry, .blockEnd] true false (.blockEntry :: stack) rest
    | ⟨.blockEnd, _⟩ :: rest => some (.sequenceEnd, stack, rest)
    | _ => none
  | .levelEntry =>
    match tokens with
    | ⟨.blockEntry, _⟩ :: rest =>
      nodeBefore? handles [.blockEntry, .key, .value, .blockEnd] true false (.levelEntry :: stack) rest
    | _ :: _ => some (.sequenceEnd, stack, tokens)
    | [] => none
  | .blockKey =>
    match tokens with
    | ⟨.key, _⟩ :: rest => nodeBefore? handles [.key, .value, .blockEnd] true true (.blockValue :: stack) rest
    | ⟨.blockEnd, _⟩ :: rest => some (.mappingEnd, stack, rest)
    | _ => none
  | .blockValue =>
    match tokens with
    | ⟨.value, _⟩ :: rest => nodeBefore? handles [.key, .value, .blockEnd] true true (.blockKey :: stack) rest
    | t :: _ => some (.missing t.mark, .blockKey :: stack, tokens)
    | [] => none
  | .flowEntry isFirst => do
    let tokens ← afterComma? isFirst .flowSequenceEnd tokens
    match tokens with
    | ⟨.flowSequenceEnd, _⟩ :: rest => some (.sequenceEnd, stack, rest)
    | ⟨.key, _⟩ :: rest => some (.mappingStart none, .pairKey :: .flowEntry false :: stack, rest)
    | _ => node? handles false false (.flowEntry false :: stack) tokens
  | .pairKey =>
    match tokens with
    | [] => none
    | t :: rest =>
      if t.kind ∈ [.value, .flowEntry, .flowSequenceEnd] then some (.missing t.mark, .pairValue :: stack, rest)
      else node? handles false false (.pairValue :: stack) tokens
  | .pairValue =>
    match tokens with
    | ⟨.value, _⟩ :: rest => nodeBefore? handles [.flowEntry, .flowSequenceEnd] false false (.pairEnd :: stack) rest
    | t :: _ => some (.missing t.mark, .pairEnd :: stack, tokens)
    | [] => none
  | .pairEnd => some (.mappingEnd, stack, tokens)
  | .flowKey isFirst => do
    let tokens ← afterComma? isFirst .flowMappingEnd tokens
    match tokens with
    | ⟨.flowMappingEnd, _⟩ :: rest => some (.mappingEnd, stack, rest)
    | ⟨.key, _⟩ :: rest =>
      nodeBefore? handles [.value, .flowEntry, .flowMappingEnd] false false (.flowValue :: stack) rest
    | _ => node? handles false false (.noValue :: stack) tokens
  | .flowValue =>
    match tokens with
    | ⟨.value, _⟩ :: rest =>
      nodeBefore? handles [.flowEntry, .flowMappingEnd] false false (.flowKey false :: stack) rest
    | t :: _ => some (.missing t.mark, .flowKey false :: stack, tokens)
    | [] => none
  | .noValue => do
    let next ← tokens.head?
    return (.missing next.mark, .flowKey false :: stack, tokens)

/-- The events of the collections that are open, the last one first, and the tokens after them unless the rules are
broken before. -/
def run (handles : List (String × String)) :
    (fuel : Nat) → List Event → List Awaited → List Token → List Event × Option (List Token)
  | _, events, [], tokens => (events, some tokens)
  | 0, events, _ :: _, _ => (events, none)
  | fuel + 1, events, awaited :: stack, tokens =>
    match step? handles awaited stack tokens with
    | some (event, stack, tokens) => run handles fuel (event :: events) stack tokens
    | none => (events, none)

/-- The meanings of tag handles after the directives of a document, and the tokens after these. There must be one version
at most, and one meaning at most for a handle. -/
def directives? (hasVersion : Bool) (handles : List (String × String)) :
    List Token → Option (List (String × String) × List Token)
  | ⟨.versionDirective major minor, _⟩ :: rest =>
    if hasVersion || major ≠ 1 || !(minor ∈ [1, 2]) then none else directives? true handles rest
  | ⟨.tagDirective handle meaning, _⟩ :: rest =>
    if (handles.lookup handle).isSome then none else directives? hasVersion (handles ++ [(handle, meaning)]) rest
  | tokens => some (handles ++ standardHandles, tokens)

/-- Whether a token ends an empty document. -/
def endsDocument : TokenKind → Bool
  | .versionDirective _ _ | .tagDirective _ _ | .documentStart | .documentEnd | .textEnd => true
  | _ => false

/-- The root of a document that a line of hyphens begins. -/
def markedRoot? (handles : List (String × String)) (tokens : List Token) : Option Move := do
  let next ← tokens.head?
  if endsDocument next.kind then return (.missing next.mark, [], tokens) else node? handles true false [] tokens

/-- The root of the first document, and the meanings of tag handles in it. Directives must be followed by a line of
hyphens. -/
def root? (tokens : List Token) : Option (List (String × String) × Move) := do
  match (← tokens.head?).kind with
  | .versionDirective _ _ | .tagDirective _ _ | .documentStart =>
    let (handles, rest) ← directives? false [] tokens
    match rest with
    | ⟨.documentStart, _⟩ :: rest => return (handles, ← markedRoot? handles rest)
    | _ => none
  | _ => return (standardHandles, ← node? standardHandles true false [] tokens)

/-- Whether nothing but the ends of the document and of the text is left. -/
def isEnd (tokens : List Token) : Bool :=
  match tokens.dropWhile fun t => t.kind = .documentEnd with
  | ⟨.textEnd, _⟩ :: _ => true
  | _ => false

end Grammar

/-- The events of the document that tokens make up, and whether nothing breaks the rules. There may be none at all. -/
def Event.ofTokens (tokens : List Token) : List Event × Bool :=
  match tokens with
  | ⟨.textEnd, _⟩ :: _ => ([], true)
  | _ =>
    match Grammar.root? tokens with
    | some (handles, event, stack, rest) =>
      let (events, rest) := Grammar.run handles (4 * tokens.length + 4) [event] stack rest
      (events.reverse, rest.any Grammar.isEnd)
    | none => ([], false)

end CircuitSynthesis.Yaml
