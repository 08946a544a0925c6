import StyleGate.Yaml.Token

/-!
# Reading a document

`Yaml.ofTokens` builds the tree of a document from its tokens. What is missing after a dash, a key or
a colon is an empty scalar. A text holds one document at most; `Yaml.read` also tells what is wrong
behind it.
-/

namespace StyleGate.Yaml

/-- The fault of a token that cannot stand where it does. -/
def unexpected : List Token → YamlFault
  | .broken f :: _ => f
  | _ => .unexpectedToken

mutual

/-- Reads a node. Blocks are only read outside brackets, and items without a block of their own only
as the value of a key. Every call takes a token or is the last one before a token is taken, which
bounds the depth. -/
def node (inFlow itemsAllowed : Bool) : Nat → List Token → Except YamlFault (Yaml × List Token)
  | _ + 1, .scalar plain text :: ts => .ok (.scalar plain text, ts)
  | fuel + 1, .openList :: ts => do
    let (items, ts) ← flowItems true fuel ts
    return (.list items, ts)
  | fuel + 1, .openRecord :: ts => do
    let (entries, ts) ← flowEntries true fuel ts
    return (.record entries, ts)
  | fuel + 1, .blockList :: ts => do
    if inFlow then throw .unexpectedToken
    let (items, ts) ← blockItems fuel ts
    return (.list items, ts)
  | fuel + 1, .blockRecord :: ts => do
    if inFlow then throw .unexpectedToken
    let (entries, ts) ← blockEntries fuel ts
    return (.record entries, ts)
  | fuel + 1, .item :: ts => do
    if !itemsAllowed then throw .unexpectedToken
    let (items, ts) ← looseItems fuel (.item :: ts)
    return (.list items, ts)
  | _, ts => .error (unexpected ts)

/-- Reads a node, or nothing in front of some tokens. -/
def nodeUnless (stops : List Token) (inFlow itemsAllowed : Bool) : Nat → List Token → Except YamlFault (Yaml × List Token)
  | 0, _ => .error .unexpectedToken
  | fuel + 1, ts =>
    if ts.head?.any (· ∈ stops) then .ok (empty, ts) else node inFlow itemsAllowed fuel ts

/-- Reads the items of a block up to its end. -/
def blockItems : Nat → List Token → Except YamlFault (List Yaml × List Token)
  | fuel + 1, .item :: ts => do
    let (first, ts) ← nodeUnless [.item, .blockEnd] false false fuel ts
    let (more, ts) ← blockItems fuel ts
    return (first :: more, ts)
  | _ + 1, .blockEnd :: ts => .ok ([], ts)
  | _, ts => .error (unexpected ts)

/-- Reads items up to the next token that is none. -/
def looseItems : Nat → List Token → Except YamlFault (List Yaml × List Token)
  | fuel + 1, .item :: ts => do
    let (first, ts) ← nodeUnless [.item, .key, .value, .blockEnd] false false fuel ts
    let (more, ts) ← looseItems fuel ts
    return (first :: more, ts)
  | _, ts => .ok ([], ts)

/-- Reads the entries of a block up to its end. -/
def blockEntries : Nat → List Token → Except YamlFault (List (Yaml × Yaml) × List Token)
  | fuel + 1, .key :: ts => do
    let (key, ts) ← nodeUnless [.key, .value, .blockEnd] false true fuel ts
    let (value, ts) ←
      match ts with
      | .value :: ts => nodeUnless [.key, .value, .blockEnd] false true fuel ts
      | ts => pure (empty, ts)
    let (more, ts) ← blockEntries fuel ts
    return ((key, value) :: more, ts)
  | _ + 1, .blockEnd :: ts => .ok ([], ts)
  | _, ts => .error (unexpected ts)

/-- Reads the value of a key in brackets, if there is one. -/
def flowValue (closer : Token) : Nat → List Token → Except YamlFault (Yaml × List Token)
  | fuel + 1, .value :: ts => nodeUnless [.comma, closer] true false fuel ts
  | _, ts => .ok (empty, ts)

/-- Reads the items of a list in brackets up to the closing one. A key with its value is a record of
one entry. -/
def flowItems (first : Bool) : Nat → List Token → Except YamlFault (List Yaml × List Token)
  | 0, _ => .error .unexpectedToken
  | _ + 1, .closeList :: ts => .ok ([], ts)
  | fuel + 1, ts => do
    let ts ←
      match first, ts with
      | true, ts => pure ts
      | false, .comma :: ts => pure ts
      | false, ts => throw (unexpected ts)
    match ts with
    | .closeList :: ts => return ([], ts)
    | .key :: ts =>
      let stops := [.value, .comma, .closeList]
      let (key, rest) ← nodeUnless stops true false fuel ts
      -- What stands in the place of a missing key is passed over.
      let rest := if ts.head?.any (· ∈ stops) then rest.tail else rest
      let (value, ts) ← flowValue .closeList fuel rest
      let (more, ts) ← flowItems false fuel ts
      return (.record [(key, value)] :: more, ts)
    | ts =>
      let (item, ts) ← node true false fuel ts
      let (more, ts) ← flowItems false fuel ts
      return (item :: more, ts)

/-- Reads the entries of a record in brackets up to the closing one. -/
def flowEntries (first : Bool) : Nat → List Token → Except YamlFault (List (Yaml × Yaml) × List Token)
  | 0, _ => .error .unexpectedToken
  | _ + 1, .closeRecord :: ts => .ok ([], ts)
  | fuel + 1, ts => do
    let ts ←
      match first, ts with
      | true, ts => pure ts
      | false, .comma :: ts => pure ts
      | false, ts => throw (unexpected ts)
    match ts with
    | .closeRecord :: ts => return ([], ts)
    | .key :: ts =>
      let (key, ts) ← nodeUnless [.value, .comma, .closeRecord] true false fuel ts
      let (value, ts) ← flowValue .closeRecord fuel ts
      let (more, ts) ← flowEntries false fuel ts
      return ((key, value) :: more, ts)
    | ts =>
      let (key, ts) ← node true false fuel ts
      let (more, ts) ← flowEntries false fuel ts
      return ((key, empty) :: more, ts)

end

/-- The document of a text, if there is one, and what is wrong behind it. -/
structure Document where
  root : Option Yaml
  fault : Option YamlFault := none

/-- The document at the front of tokens, if there is one, and the tokens after it. It is not over
before the next token is known. -/
def documentAt (ts : List Token) : Except YamlFault (Option Yaml × List Token) := do
  let fuel := 3 * ts.length + 3
  let (document, ts) ←
    match ts with
    | [] => return (none, [])
    | [.documentStart] => pure (empty, [])
    | .documentStart :: ts => nodeUnless [.documentStart, .documentEnd] false false fuel ts
    | ts => node false false fuel ts
  match ts with
  | .broken f :: _ => throw f
  | ts => return (some document, ts.dropWhile (· == .documentEnd))

/-- The document of tokens. A second document is wrong; it is read only to see whether it breaks the
program down. -/
def ofTokens (ts : List Token) : Except YamlFault Document := do
  let (root, ts) ← documentAt ts
  let fault :=
    match ts with
    | [] => none
    | .documentStart :: _ =>
      match documentAt ts with
      | .error f => some (if f.isBreakdown then f else .severalDocuments)
      | .ok _ => some .severalDocuments
    | ts => some (unexpected ts)
  return { root, fault }

/-- The document in a text. -/
def read (text : String) : Except YamlFault Document := ofTokens (layout text)

end StyleGate.Yaml
