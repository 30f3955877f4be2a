import Batchalign.Lib.WhiteSpace

/- Constituency trees and their bracket notation (`constituency.rs`). A text is a list of characters.
   The parser works with a cursor and with fuel, of which `tokenizedFuel` is enough; reading outside the
   tokens, a failed assertion and missing fuel are faults of their own. -/
namespace Batchalign.Utseg

inductive Tree where
  | node (label : List Char) (children : List Tree) (leafText : Option (List Char))

namespace Tree

def label : Tree → List Char
  | .node label _ _ => label

def children : Tree → List Tree
  | .node _ children _ => children

def leafText : Tree → Option (List Char)
  | .node _ _ leafText => leafText

def isLeaf (tree : Tree) : Bool := tree.children.isEmpty && tree.leafText.isSome

def leaf (word : List Char) : Tree := .node word [] (some word)

@[simp] theorem isLeaf_leaf (word : List Char) : (leaf word).isLeaf = true := rfl

@[simp] theorem isLeaf_group (label : List Char) (children : List Tree) :
    (node label children none).isLeaf = false := by simp [isLeaf, leafText]

end Tree

mutual
def leafCount : Tree → ℕ
  | .node _ children leafText =>
    if children.isEmpty && leafText.isSome then 1 else leafCounts children
def leafCounts : List Tree → ℕ
  | [] => 0
  | child :: children => leafCount child + leafCounts children
end

theorem leafCount_of_isLeaf {tree : Tree} (h : tree.isLeaf = true) : leafCount tree = 1 := by
  cases tree with
  | node label children leafText =>
    have h' : (children.isEmpty && leafText.isSome) = true := h
    rw [leafCount, if_pos h']

theorem leafCount_of_not_isLeaf {tree : Tree} (h : tree.isLeaf = false) :
    leafCount tree = leafCounts tree.children := by
  cases tree with
  | node label children leafText =>
    have h' : (children.isEmpty && leafText.isSome) = false := h
    rw [leafCount, h']
    rfl

section Indices

def isCoordination (label : List Char) : Bool :=
  let lower := label.map Char.toLower
  lower == "cc".toList || lower == "conj".toList

def hasCoordination (children : List Tree) : Bool :=
  children.any fun child => isCoordination child.label

mutual
/-- The word ranges of the S children of coordinations, words numbered from `offset`. -/
def parseTreeIndices : Tree → ℕ → List (List ℕ)
  | .node _ children leafText, offset =>
    if children.isEmpty && leafText.isSome then []
    else childIndices (hasCoordination children) children offset
def childIndices (coordinated : Bool) : List Tree → ℕ → List (List ℕ)
  | [], _ => []
  | child :: children, childOffset =>
    if child.isLeaf then childIndices coordinated children (childOffset + 1)
    else
      let phrase := if coordinated && child.label == "S".toList
        then [List.range' childOffset (leafCount child)] else []
      phrase ++ parseTreeIndices child childOffset ++
        childIndices coordinated children (childOffset + leafCount child)
end

end Indices

section Tokens

inductive Token where
  | opening
  | closing
  | word (text : List Char)
  deriving DecidableEq

def isDelimiter (c : Char) : Bool := c == '(' || c == ')' || WhiteSpace.isWhitespace c

/-- The inner loop: `current` holds the word being read, empty between words. -/
def tokenizeFrom (current : List Char) : List Char → List Token
  | [] => if current.isEmpty then [] else [.word current]
  | c :: rest =>
    if isDelimiter c then
      let done := if current.isEmpty then [] else [.word current]
      let bracket : List Token := if c == '(' then [.opening] else if c == ')' then [.closing] else []
      done ++ bracket ++ tokenizeFrom [] rest
    else tokenizeFrom (current ++ [c]) rest

def tokenize (s : List Char) : List Token := tokenizeFrom [] s

end Tokens

section Parser

inductive ParseError where
  | empty
  | unexpectedEnd
  | unexpectedClose (position : ℕ)
  | trailingTokens (position : ℕ)

inductive Fault where
  | parse (error : ParseError)
  | outOfRange
  | assertionFailed
  | outOfFuel

/-- `tokens[pos]`. -/
def tokenAt (tokens : List Token) (pos : ℕ) : Except Fault Token :=
  match tokens[pos]? with
  | some token => .ok token
  | none => .error .outOfRange

def closeGroup (tokens : List Token) (label : List Char) (children : List Tree) (cur : ℕ) :
    Except Fault (Tree × ℕ) :=
  if tokens.length ≤ cur then .error (.parse .unexpectedEnd)
  else .ok (.node label children none, cur + 1)

def closeLabelled (tokens : List Token) (label : List Char) (children : List Tree) (cur : ℕ) :
    Except Fault (Tree × ℕ) :=
  if tokens.length ≤ cur then .error (.parse .unexpectedEnd)
  else
    match tokenAt tokens cur with
    | .error fault => .error fault
    | .ok token =>
      if token = .closing then .ok (.node label children none, cur + 1)
      else .error .assertionFailed

mutual
def parseTree : ℕ → List Token → ℕ → Except Fault (Tree × ℕ)
  | 0, _, _ => .error .outOfFuel
  | fuel + 1, tokens, pos =>
    if tokens.length ≤ pos then .error (.parse .unexpectedEnd)
    else
      match tokenAt tokens pos with
      | .error fault => .error fault
      | .ok .opening =>
        if tokens.length ≤ pos + 1 then .error (.parse .unexpectedEnd)
        else
          match tokenAt tokens (pos + 1) with
          | .error fault => .error fault
          | .ok (.word label) => labelledChildren fuel tokens label [] (pos + 2)
          | .ok .opening => unlabelledChildren fuel tokens [] (pos + 1)
          | .ok .closing => .ok (.node [] [] none, pos + 2)
      | .ok (.word text) => .ok (.leaf text, pos + 1)
      | .ok .closing => .error (.parse (.unexpectedClose pos))
def unlabelledChildren : ℕ → List Token → List Tree → ℕ → Except Fault (Tree × ℕ)
  | 0, _, _, _ => .error .outOfFuel
  | fuel + 1, tokens, children, cur =>
    if tokens.length ≤ cur then closeGroup tokens [] children cur
    else
      match tokenAt tokens cur with
      | .error fault => .error fault
      | .ok .closing => closeGroup tokens [] children cur
      | .ok _ =>
        match parseTree fuel tokens cur with
        | .error fault => .error fault
        | .ok (child, next) => unlabelledChildren fuel tokens (children ++ [child]) next
def labelledChildren : ℕ → List Token → List Char → List Tree → ℕ → Except Fault (Tree × ℕ)
  | 0, _, _, _, _ => .error .outOfFuel
  | fuel + 1, tokens, label, children, cur =>
    if tokens.length ≤ cur then closeLabelled tokens label children cur
    else
      match tokenAt tokens cur with
      | .error fault => .error fault
      | .ok .closing => closeLabelled tokens label children cur
      | .ok .opening =>
        match parseTree fuel tokens cur with
        | .error fault => .error fault
        | .ok (child, next) => labelledChildren fuel tokens label (children ++ [child]) next
      | .ok (.word text) =>
        labelledChildren fuel tokens label (children ++ [.leaf text]) (cur + 1)
end

def tokenizedFuel (tokens : List Token) : ℕ := 2 * tokens.length + 1

def parseBracketNotation (s : List Char) : Except Fault Tree :=
  let tokens := tokenize s
  if tokens.isEmpty then .error (.parse .empty)
  else
    match parseTree (tokenizedFuel tokens) tokens 0 with
    | .error fault => .error fault
    | .ok (tree, consumed) =>
      if consumed ≠ tokens.length then .error (.parse (.trailingTokens consumed)) else .ok tree

end Parser

end Batchalign.Utseg
