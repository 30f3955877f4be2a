import Mathlib.Tactic
import Batchalign.Utseg.Constituency

/- What the bracket notation parser accepts, and what it returns.

   Soundness and completeness are by induction on the fuel, for the three mutual functions
   at once; in each the segment read is what the tokens lose between the two cursors. -/
namespace Batchalign.Utseg
open List

section Language

def IsWord (text : List Char) : Prop := text ≠ [] ∧ ∀ c ∈ text, isDelimiter c = false

inductive Spells : List Char → List Token → Prop
  | done : Spells [] []
  | space {c : Char} {s : List Char} {tokens : List Token} :
      WhiteSpace.isWhitespace c = true → Spells s tokens → Spells (c :: s) tokens
  | opening {s : List Char} {tokens : List Token} :
      Spells s tokens → Spells ('(' :: s) (.opening :: tokens)
  | closing {s : List Char} {tokens : List Token} :
      Spells s tokens → Spells (')' :: s) (.closing :: tokens)
  | word {text s : List Char} {tokens : List Token} :
      IsWord text → (∀ c ∈ s.head?, isDelimiter c = true) → Spells s tokens →
        Spells (text ++ s) (.word text :: tokens)

inductive Nested : List Token → Prop
  | nil : Nested []
  | word {text : List Char} {tokens : List Token} : Nested tokens → Nested (.word text :: tokens)
  | group {inner tokens : List Token} :
      Nested inner → Nested tokens → Nested (.opening :: inner ++ .closing :: tokens)

def Accepted (tokens : List Token) : Prop :=
  (∃ text, tokens = [.word text]) ∨ ∃ inner, Nested inner ∧ tokens = .opening :: inner ++ [.closing]

/-- The trees the parser can return; a group without a label does not begin with a leaf. -/
inductive Readable : Tree → Prop
  | leaf {text : List Char} : IsWord text → Readable (.leaf text)
  | group {label : List Char} {children : List Tree} : (label = [] ∨ IsWord label) →
      (label = [] → ∀ child ∈ children.head?, child.isLeaf = false) →
      (∀ child ∈ children, Readable child) → Readable (.node label children none)

def labelTokens (label : List Char) : List Token := if label.isEmpty then [] else [.word label]

mutual
def write : Tree → List Token
  | .node _ _ (some text) => [.word text]
  | .node label children none => .opening :: (labelTokens label ++ writeAll children) ++ [.closing]
def writeAll : List Tree → List Token
  | [] => []
  | child :: children => write child ++ writeAll children
end

def bracket (parts : List (List Char)) : List Char :=
  '(' :: (parts.intersperse [' ']).flatten ++ [')']

mutual
def print : Tree → List Char
  | .node _ _ (some text) => text
  | .node label children none => bracket ((if label.isEmpty then [] else [label]) ++ printAll children)
def printAll : List Tree → List (List Char)
  | [] => []
  | child :: children => print child :: printAll children
end

mutual
def leaves : Tree → List (List Char)
  | .node _ children leafText =>
    if children.isEmpty && leafText.isSome then leafText.toList else leavesAll children
def leavesAll : List Tree → List (List Char)
  | [] => []
  | child :: children => leaves child ++ leavesAll children
end

def bareWords : Bool → List Token → List (List Char)
  | _, [] => []
  | _, .opening :: tokens => bareWords true tokens
  | _, .closing :: tokens => bareWords false tokens
  | afterOpening, .word text :: tokens =>
    (if afterOpening then [] else [text]) ++ bareWords false tokens

end Language

section Tokenizer

theorem isDelimiter_of_space {c : Char} (h : WhiteSpace.isWhitespace c = true) :
    isDelimiter c = true := by
  simp [isDelimiter, h]

variable {current s : List Char}

theorem tokenizeFrom_word {text : List Char} (hbare : ∀ c ∈ text, isDelimiter c = false) :
    tokenizeFrom current (text ++ s) = tokenizeFrom (current ++ text) s := by
  induction text generalizing current with
  | nil => simp
  | cons c text ih =>
    have hc := hbare c mem_cons_self
    rw [cons_append, tokenizeFrom, if_neg (by simp [hc]),
      ih (fun c' hc' => hbare c' (mem_cons_of_mem c hc'))]
    simp

theorem tokenizeFrom_ends (hcurrent : current ≠ []) (hends : ∀ c ∈ s.head?, isDelimiter c = true) :
    tokenizeFrom current s = .word current :: tokenize s := by
  have hempty : current.isEmpty = false := by simpa using hcurrent
  cases s with
  | nil => simp [tokenizeFrom, tokenize, hempty]
  | cons c s =>
    have hc : isDelimiter c = true := hends c rfl
    simp [tokenizeFrom, tokenize, hc, hempty]

variable {tokens : List Token}

theorem tokenize_of_spells (h : Spells s tokens) : tokenize s = tokens := by
  induction h with
  | done => rfl
  | @space c s tokens hspace _ ih =>
    have hopen : (c == '(') = false := by
      by_contra hc
      have heq : c = '(' := by simpa using hc
      rw [heq] at hspace
      cases hspace
    have hclose : (c == ')') = false := by
      by_contra hc
      have heq : c = ')' := by simpa using hc
      rw [heq] at hspace
      cases hspace
    rw [tokenize, tokenizeFrom, if_pos (isDelimiter_of_space hspace)]
    simpa [hopen, hclose, tokenize] using ih
  | opening _ ih =>
    exact congrArg (Token.opening :: ·) ih
  | closing _ ih =>
    exact congrArg (Token.closing :: ·) ih
  | @word text s tokens hword hends _ ih =>
    rw [tokenize, tokenizeFrom_word hword.2, nil_append, tokenizeFrom_ends hword.1 hends, ih]

theorem spells_tokenizeFrom (hbare : ∀ c ∈ current, isDelimiter c = false)
    (s : List Char) : Spells (current ++ s) (tokenizeFrom current s) := by
  induction s generalizing current with
  | nil =>
    cases current with
    | nil => exact .done
    | cons c current =>
      exact .word ⟨cons_ne_nil c current, hbare⟩ (by simp) .done
  | cons c s ih =>
    rw [tokenizeFrom]
    split
    · rename_i hc
      -- what follows the delimiter is read afresh
      have hrest : Spells (c :: s) ((if c == '(' then [.opening] else if c == ')' then [.closing]
          else []) ++ tokenizeFrom [] s) := by
        have hnone : ∀ c' ∈ ([] : List Char), isDelimiter c' = false := by simp
        have hnext : Spells s (tokenizeFrom [] s) := ih hnone
        split
        · rename_i hopen
          have heq : c = '(' := by simpa using hopen
          rw [heq]
          exact .opening hnext
        · rename_i hopen
          split
          · rename_i hclose
            have heq : c = ')' := by simpa using hclose
            rw [heq]
            exact .closing hnext
          · rename_i hclose
            refine .space ?_ hnext
            simpa [isDelimiter, hopen, hclose] using hc
      cases current with
      | nil => simpa using hrest
      | cons d current =>
        have hhead : ∀ c' ∈ (c :: s).head?, isDelimiter c' = true := by
          intro c' hc'
          have heq : c = c' := by simpa using hc'
          rw [← heq]
          exact hc
        exact .word ⟨cons_ne_nil d current, hbare⟩ hhead hrest
    · rename_i hc
      have hbare' : ∀ c' ∈ current ++ [c], isDelimiter c' = false := by
        intro c' hc'
        rcases mem_append.mp hc' with hc' | hc'
        · exact hbare c' hc'
        · have heq : c' = c := by simpa using hc'
          rw [heq]
          simpa using hc
      have hread := ih hbare'
      rwa [append_assoc] at hread

theorem spells_iff : Spells s tokens ↔ tokenize s = tokens := by
  constructor
  · exact tokenize_of_spells
  · intro h
    rw [← h]
    have hnone : ∀ c ∈ ([] : List Char), isDelimiter c = false := by simp
    exact spells_tokenizeFrom hnone s

theorem isWord_of_spells (h : Spells s tokens) : ∀ text, .word text ∈ tokens → IsWord text := by
  induction h with
  | done => simp
  | space _ _ ih => exact ih
  | opening _ ih => simpa using ih
  | closing _ ih => simpa using ih
  | word hword _ _ ih =>
    intro text htext
    rcases mem_cons.mp htext with heq | htext
    · cases heq
      exact hword
    · exact ih text htext

end Tokenizer

section Steps
variable {fuel pos cur : ℕ} {tokens rest : List Token} {label text : List Char}
  {children : List Tree}

variable {token : Token}

section
variable (h : tokens.drop pos = token :: rest)
include h

theorem lt_of_drop : pos < tokens.length := by
  have hne : tokens.drop pos ≠ [] := by simp [h]
  simpa using hne

theorem tokenAt_of_drop : tokenAt tokens pos = .ok token := by
  have hget : tokens[pos]? = some token := by
    rw [← head?_drop, h, head?_cons]
  rw [tokenAt, hget]

theorem drop_succ_of_drop : tokens.drop (pos + 1) = rest := by
  rw [← tail_drop, h, tail_cons]

end

theorem length_le_of_drop (h : tokens.drop pos = []) : tokens.length ≤ pos := by
  simpa using h

theorem parseTree_end (h : tokens.drop pos = []) :
    parseTree (fuel + 1) tokens pos = .error (.parse .unexpectedEnd) := by
  rw [parseTree, if_pos (length_le_of_drop h)]

theorem parseTree_at (h : tokens.drop pos = token :: rest) :
    parseTree (fuel + 1) tokens pos = match token, rest with
      | .word text, _ => .ok (.leaf text, pos + 1)
      | .closing, _ => .error (.parse (.unexpectedClose pos))
      | .opening, [] => .error (.parse .unexpectedEnd)
      | .opening, .closing :: _ => .ok (.node [] [] none, pos + 2)
      | .opening, .opening :: _ => unlabelledChildren fuel tokens [] (pos + 1)
      | .opening, .word label :: _ => labelledChildren fuel tokens label [] (pos + 2) := by
  have hlt := lt_of_drop h
  rw [parseTree, if_neg (by omega), tokenAt_of_drop h]
  cases token with
  | word text => rfl
  | closing => rfl
  | opening =>
    have hnext := drop_succ_of_drop h
    cases rest with
    | nil => exact if_pos (length_le_of_drop hnext)
    | cons next rest =>
      have hlt := lt_of_drop hnext
      simp only [tokenAt_of_drop hnext, if_neg (show ¬ tokens.length ≤ pos + 1 by omega)]
      cases next <;> rfl

theorem parseTree_word (h : tokens.drop pos = .word text :: rest) :
    parseTree (fuel + 1) tokens pos = .ok (.leaf text, pos + 1) :=
  parseTree_at h

theorem parseTree_closing (h : tokens.drop pos = .closing :: rest) :
    parseTree (fuel + 1) tokens pos = .error (.parse (.unexpectedClose pos)) :=
  parseTree_at h

theorem parseTree_opening_end (h : tokens.drop pos = [.opening]) :
    parseTree (fuel + 1) tokens pos = .error (.parse .unexpectedEnd) :=
  parseTree_at h

theorem parseTree_empty_group (h : tokens.drop pos = .opening :: .closing :: rest) :
    parseTree (fuel + 1) tokens pos = .ok (.node [] [] none, pos + 2) :=
  parseTree_at h

theorem parseTree_unlabelled (h : tokens.drop pos = .opening :: .opening :: rest) :
    parseTree (fuel + 1) tokens pos = unlabelledChildren fuel tokens [] (pos + 1) :=
  parseTree_at h

theorem parseTree_labelled (h : tokens.drop pos = .opening :: .word label :: rest) :
    parseTree (fuel + 1) tokens pos = labelledChildren fuel tokens label [] (pos + 2) :=
  parseTree_at h

/-- What the two loops over the children of a group share; a bare word becomes a leaf in both. -/
structure IsLoop (tokens : List Token) (label : List Char)
    (loop : ℕ → List Tree → ℕ → Except Fault (Tree × ℕ)) : Prop where
  unfuelled : ∀ acc cur, loop 0 acc cur = .error .outOfFuel
  ended : ∀ {fuel acc cur}, tokens.drop cur = [] →
    loop (fuel + 1) acc cur = .error (.parse .unexpectedEnd)
  closing : ∀ {fuel acc cur rest}, tokens.drop cur = .closing :: rest →
    loop (fuel + 1) acc cur = .ok (.node label acc none, cur + 1)
  child : ∀ {fuel acc cur token rest}, tokens.drop cur = token :: rest → token ≠ .closing →
    loop (fuel + 1) acc cur =
      (parseTree fuel tokens cur).bind fun read => loop fuel (acc ++ [read.1]) read.2

theorem isLoop_unlabelled (tokens : List Token) :
    IsLoop tokens [] fun fuel => unlabelledChildren fuel tokens where
  unfuelled _ _ := by rw [unlabelledChildren]
  ended h := by
    have hend := length_le_of_drop h
    rw [unlabelledChildren, if_pos hend, closeGroup, if_pos hend]
  closing h := by
    have hlt := lt_of_drop h
    rw [unlabelledChildren, if_neg (by omega), tokenAt_of_drop h]
    simp only [closeGroup]
    exact if_neg (by omega)
  child := by
    intro fuel acc cur token rest h hopen
    have hlt := lt_of_drop h
    rw [unlabelledChildren, if_neg (by omega), tokenAt_of_drop h]
    cases token with
    | closing => exact absurd rfl hopen
    | opening => cases parseTree fuel tokens cur <;> rfl
    | word text => cases parseTree fuel tokens cur <;> rfl

theorem isLoop_labelled (tokens : List Token) (label : List Char) :
    IsLoop tokens label fun fuel => labelledChildren fuel tokens label where
  unfuelled _ _ := by rw [labelledChildren]
  ended h := by
    have hend := length_le_of_drop h
    rw [labelledChildren, if_pos hend, closeLabelled, if_pos hend]
  closing := by
    intro fuel acc cur rest h
    have hlt := lt_of_drop h
    have hclose : closeLabelled tokens label acc cur = .ok (.node label acc none, cur + 1) := by
      rw [closeLabelled, if_neg (by omega), tokenAt_of_drop h]
      exact if_pos rfl
    rw [labelledChildren, if_neg (by omega), tokenAt_of_drop h]
    exact hclose
  child := by
    intro fuel acc cur token rest h hopen
    have hlt := lt_of_drop h
    rw [labelledChildren, if_neg (by omega), tokenAt_of_drop h]
    cases token with
    | closing => exact absurd rfl hopen
    | opening => cases parseTree fuel tokens cur <;> rfl
    | word text =>
      cases fuel with
      | zero => simp [labelledChildren, parseTree, Except.bind]
      | succ fuel =>
        rw [parseTree_word h]
        rfl

end Steps

section Writing
variable {label text : List Char} {children : List Tree} {tree : Tree} {tokens : List Token}

@[simp] theorem write_leaf (text : List Char) : write (.leaf text) = [.word text] := by
  rw [Tree.leaf, write]

@[simp] theorem write_group (label : List Char) (children : List Tree) :
    write (.node label children none) =
      .opening :: (labelTokens label ++ writeAll children) ++ [.closing] := by
  rw [write]

@[simp] theorem writeAll_nil : writeAll [] = [] := by rw [writeAll]

@[simp] theorem writeAll_cons (child : Tree) (children : List Tree) :
    writeAll (child :: children) = write child ++ writeAll children := by
  rw [writeAll]

@[simp] theorem labelTokens_nil : labelTokens [] = [] := rfl

theorem labelTokens_word (h : IsWord label) : labelTokens label = [.word label] := by
  have hempty : label.isEmpty = false := by simpa using h.1
  simp [labelTokens, hempty]

theorem Readable.starts (h : Readable tree) : (∃ text, IsWord text ∧ tree = .leaf text) ∨
      (tree.isLeaf = false ∧ ∃ inside, write tree = .opening :: inside) := by
  cases h with
  | leaf hword => exact Or.inl ⟨_, hword, rfl⟩
  | group _ _ _ => exact Or.inr ⟨Tree.isLeaf_group _ _, _, write_group _ _⟩

end Writing

section Sound
variable {fuel pos cur next : ℕ} {tokens rest : List Token} {label : List Char}
  {acc : List Tree} {tree : Tree}

def Between (tokens : List Token) (pos : ℕ) (read : List Token) (next : ℕ) : Prop :=
  next = pos + read.length ∧ tokens.drop pos = read ++ tokens.drop next

theorem Between.one {token : Token} (h : tokens.drop pos = token :: rest) :
    Between tokens pos [token] (pos + 1) := by
  refine ⟨rfl, ?_⟩
  rw [drop_succ_of_drop h, h, singleton_append]

theorem Between.append {read read' : List Token} {mid : ℕ} (h : Between tokens pos read mid)
    (h' : Between tokens mid read' next) : Between tokens pos (read ++ read') next := by
  refine ⟨?_, ?_⟩
  · rw [h'.1, h.1, length_append, add_assoc]
  · rw [h.2, h'.2, append_assoc]

def ReadsGroup (tokens : List Token) (label : List Char) (acc : List Tree) (cur : ℕ) (tree : Tree)
    (next : ℕ) : Prop :=
  ∃ children, (∀ child ∈ children, Readable child) ∧ tree = .node label (acc ++ children) none ∧
    Between tokens cur (writeAll children ++ [.closing]) next

theorem ReadsGroup.closed (h : tokens.drop cur = .closing :: rest) :
    ReadsGroup tokens label acc cur (.node label acc none) (cur + 1) := by
  refine ⟨[], by simp, by simp, ?_⟩
  simpa using Between.one h

theorem ReadsGroup.cons {child : Tree} {mid : ℕ} (hchild : Readable child)
    (hread : Between tokens cur (write child) mid)
    (h : ReadsGroup tokens label (acc ++ [child]) mid tree next) :
    ReadsGroup tokens label acc cur tree next := by
  obtain ⟨children, hall, htree, hrest⟩ := h
  refine ⟨child :: children, ?_, ?_, ?_⟩
  · intro c hc
    rcases mem_cons.mp hc with heq | hc
    · rw [heq]
      exact hchild
    · exact hall c hc
  · rw [htree, append_assoc, singleton_append]
  · rw [writeAll_cons, append_assoc]
    exact hread.append hrest

theorem ReadsGroup.whole (hlabel : label = [] ∨ IsWord label)
    (hfirst : label = [] → tokens.drop (pos + 1) = .opening :: rest)
    (hbefore : Between tokens pos (.opening :: labelTokens label) cur)
    (h : ReadsGroup tokens label [] cur tree next) :
    Readable tree ∧ Between tokens pos (write tree) next := by
  obtain ⟨children, hall, htree, hread⟩ := h
  rw [htree]
  constructor
  · refine .group hlabel ?_ hall
    intro hempty child hchild
    have hcur : cur = pos + 1 := by simpa [hempty] using hbefore.1
    cases children with
    | nil => cases hchild
    | cons first children =>
      have heq : first = child := by simpa using hchild
      rw [← heq]
      have hdrop := hread.2
      rw [hcur, hfirst hempty, writeAll_cons] at hdrop
      rcases (hall first mem_cons_self).starts with ⟨text, _, hleaf⟩ | ⟨hleaf, _⟩
      · rw [hleaf] at hdrop
        simp at hdrop
      · exact hleaf
  · have hall := hbefore.append hread
    simpa using hall

theorem exists_of_child_ok {loop : Tree × ℕ → Except Fault (Tree × ℕ)} {result : Tree × ℕ}
    (h : (parseTree fuel tokens cur).bind loop = .ok result) :
    ∃ child mid, parseTree fuel tokens cur = .ok (child, mid) ∧ loop (child, mid) = .ok result := by
  cases hchild : parseTree fuel tokens cur with
  | error fault => simp [hchild, Except.bind] at h
  | ok read =>
    rw [hchild] at h
    exact ⟨read.1, read.2, rfl, h⟩

theorem sound (hwords : ∀ text, .word text ∈ tokens → IsWord text) (fuel : ℕ) :
    (∀ pos tree next, parseTree fuel tokens pos = .ok (tree, next) →
      Readable tree ∧ Between tokens pos (write tree) next) ∧
    (∀ label loop, IsLoop tokens label loop → ∀ acc cur tree next,
      loop fuel acc cur = .ok (tree, next) → ReadsGroup tokens label acc cur tree next) := by
  have hword : ∀ {pos text rest}, tokens.drop pos = Token.word text :: rest → IsWord text := by
    intro pos text rest h
    exact hwords text (mem_of_mem_drop (h ▸ mem_cons_self))
  induction fuel with
  | zero =>
    refine ⟨?_, ?_⟩
    · intro pos tree next h
      simp [parseTree] at h
    · intro label loop hloop acc cur tree next h
      simp [hloop.unfuelled] at h
  | succ fuel ih =>
    obtain ⟨ihTree, ihLoop⟩ := ih
    refine ⟨?_, ?_⟩
    · intro pos tree next h
      match hdrop : tokens.drop pos with
      | [] => simp [parseTree_end hdrop] at h
      | .closing :: rest => simp [parseTree_closing hdrop] at h
      | .word text :: rest =>
        rw [parseTree_word hdrop] at h
        cases h
        exact ⟨.leaf (hword hdrop), by simpa using Between.one hdrop⟩
      | [.opening] => simp [parseTree_opening_end hdrop] at h
      | .opening :: .closing :: rest =>
        rw [parseTree_empty_group hdrop] at h
        cases h
        refine ⟨.group (.inl rfl) (by simp) (by simp), ?_⟩
        simpa using (Between.one hdrop).append (Between.one (drop_succ_of_drop hdrop))
      | .opening :: .opening :: rest =>
        rw [parseTree_unlabelled hdrop] at h
        exact (ihLoop _ _ (isLoop_unlabelled tokens) _ _ _ _ h).whole (.inl rfl)
          (fun _ => drop_succ_of_drop hdrop) (Between.one hdrop)
      | .opening :: .word label :: rest =>
        have hnext := drop_succ_of_drop hdrop
        have hlabel := hword hnext
        rw [parseTree_labelled hdrop] at h
        have hbefore : Between tokens pos (.opening :: labelTokens label) (pos + 2) := by
          rw [labelTokens_word hlabel]
          exact (Between.one hdrop).append (Between.one hnext)
        have hfirst : label = [] → tokens.drop (pos + 1) = .opening :: rest :=
          fun hempty => absurd hempty hlabel.1
        exact (ihLoop _ _ (isLoop_labelled tokens label) _ _ _ _ h).whole (.inr hlabel) hfirst hbefore
    · intro label loop hloop acc cur tree next h
      cases hdrop : tokens.drop cur with
      | nil => simp [hloop.ended hdrop] at h
      | cons token rest =>
        by_cases hclosing : token = .closing
        · subst hclosing
          rw [hloop.closing hdrop] at h
          cases h
          exact .closed hdrop
        · rw [hloop.child hdrop hclosing] at h
          obtain ⟨child, mid, hchild, hlater⟩ := exists_of_child_ok h
          obtain ⟨hreadable, hread⟩ := ihTree _ _ _ hchild
          exact (ihLoop _ _ hloop _ _ _ _ hlater).cons hreadable hread

end Sound

section Complete
variable {fuel pos cur : ℕ} {tokens rest : List Token} {tree : Tree}

theorem drop_of_append {read : List Token} (h : tokens.drop pos = read ++ rest) :
    tokens.drop (pos + read.length) = rest := by
  rw [← drop_drop, h, drop_left]

theorem Readable.first_token (h : Readable tree) :
    ∃ token more, write tree = token :: more ∧ token ≠ .closing := by
  rcases h.starts with ⟨text, _, heq⟩ | ⟨_, inside, heq⟩
  · exact ⟨.word text, [], by rw [heq, write_leaf], by simp⟩
  · exact ⟨.opening, inside, heq, by simp⟩

theorem Readable.write_pos (h : Readable tree) : 0 < (write tree).length := by
  obtain ⟨token, more, heq, -⟩ := h.first_token
  simp [heq]

theorem fuel_after_child (hread : 0 < (write tree).length)
    (h : tokens.drop cur = write tree ++ rest) (hfuel : 2 * (tokens.length - cur) + 2 ≤ fuel + 1) :
    2 * (tokens.length - (cur + (write tree).length)) + 2 ≤ fuel := by
  have hlength : (tokens.drop cur).length = (write tree ++ rest).length := congrArg List.length h
  rw [length_drop, length_append] at hlength
  omega

theorem complete (tokens : List Token) (fuel : ℕ) :
    (∀ tree pos rest, Readable tree → tokens.drop pos = write tree ++ rest →
      2 * (tokens.length - pos) + 1 ≤ fuel →
      parseTree fuel tokens pos = .ok (tree, pos + (write tree).length)) ∧
    (∀ label loop, IsLoop tokens label loop → ∀ children acc cur rest,
      (∀ child ∈ children, Readable child) → tokens.drop cur = writeAll children ++ .closing :: rest →
      2 * (tokens.length - cur) + 2 ≤ fuel → loop fuel acc cur =
        .ok (.node label (acc ++ children) none, cur + (writeAll children).length + 1)) := by
  induction fuel with
  | zero =>
    refine ⟨?_, ?_⟩
    · intro _ _ _ _ _ hfuel
      omega
    · intro _ _ _ _ _ _ _ _ _ hfuel
      omega
  | succ fuel ih =>
    obtain ⟨ihTree, ihLoop⟩ := ih
    refine ⟨?_, ?_⟩
    · intro tree pos rest hreadable hdrop hfuel
      cases hreadable with
      | leaf hword =>
        exact parseTree_word hdrop
      | @group label children hlabel hfirst hall =>
        rw [write_group] at hdrop ⊢
        rcases hlabel with hempty | hlabel
        · subst hempty
          cases children with
          | nil => exact parseTree_empty_group (by simpa using hdrop)
          | cons first children =>
            rcases (hall first mem_cons_self).starts with ⟨text, _, hleaf⟩ | ⟨_, inside, hinside⟩
            · have hno := hfirst rfl first rfl
              rw [hleaf, Tree.isLeaf_leaf] at hno
              cases hno
            · have hopening : tokens.drop pos =
                  .opening :: .opening :: (inside ++ writeAll children ++ .closing :: rest) := by
                simpa [hinside] using hdrop
              have hlt := lt_of_drop hopening
              have hnext : tokens.drop (pos + 1) = writeAll (first :: children) ++ .closing :: rest := by
                rw [drop_succ_of_drop hopening, writeAll_cons, hinside]
                simp
              rw [parseTree_unlabelled hopening, ihLoop _ _ (isLoop_unlabelled tokens)
                (first :: children) [] (pos + 1) rest hall hnext (by omega)]
              simp
              omega
        · rw [labelTokens_word hlabel] at hdrop ⊢
          have hopening : tokens.drop pos =
              .opening :: .word label :: (writeAll children ++ .closing :: rest) := by
            simpa using hdrop
          have hlt := lt_of_drop hopening
          have hnext : tokens.drop (pos + 2) = writeAll children ++ .closing :: rest :=
            drop_succ_of_drop (drop_succ_of_drop hopening)
          rw [parseTree_labelled hopening, ihLoop _ _ (isLoop_labelled tokens label)
            children [] (pos + 2) rest hall hnext (by omega)]
          simp
          omega
    · intro label loop hloop children acc cur rest hall hdrop hfuel
      cases children with
      | nil =>
        rw [writeAll_nil, nil_append] at hdrop
        rw [hloop.closing hdrop]
        simp
      | cons child children =>
        have hchild := hall child mem_cons_self
        rw [writeAll_cons, append_assoc] at hdrop
        have hlater := ihLoop _ _ hloop children (acc ++ [child]) _ rest
          (fun c hc => hall c (mem_cons_of_mem child hc)) (drop_of_append hdrop)
          (fuel_after_child hchild.write_pos hdrop hfuel)
        obtain ⟨token, more, htoken, hopen⟩ := hchild.first_token
        rw [hloop.child (by rw [hdrop, htoken]; rfl) hopen, ihTree child cur _ hchild hdrop (by omega)]
        simp only [Except.bind]
        rw [hlater]
        simp
        omega

theorem faults (hwords : ∀ text, .word text ∈ tokens → IsWord text) (fuel : ℕ) :
    (∀ pos fault, 2 * (tokens.length - pos) + 1 ≤ fuel →
      parseTree fuel tokens pos = .error fault → ∃ e, fault = .parse e) ∧
    (∀ label loop, IsLoop tokens label loop → ∀ acc cur fault,
      2 * (tokens.length - cur) + 2 ≤ fuel → loop fuel acc cur = .error fault →
      ∃ e, fault = .parse e) := by
  induction fuel with
  | zero =>
    refine ⟨?_, ?_⟩
    · intro _ _ hfuel
      omega
    · intro _ _ _ _ _ _ hfuel
      omega
  | succ fuel ih =>
    obtain ⟨ihTree, ihLoop⟩ := ih
    refine ⟨?_, ?_⟩
    · intro pos fault hfuel h
      match hdrop : tokens.drop pos with
      | [] =>
        rw [parseTree_end hdrop] at h
        cases h
        exact ⟨_, rfl⟩
      | .closing :: rest =>
        rw [parseTree_closing hdrop] at h
        cases h
        exact ⟨_, rfl⟩
      | .word text :: rest =>
        rw [parseTree_word hdrop] at h
        cases h
      | [.opening] =>
        rw [parseTree_opening_end hdrop] at h
        cases h
        exact ⟨_, rfl⟩
      | .opening :: .closing :: rest =>
        rw [parseTree_empty_group hdrop] at h
        cases h
      | .opening :: .opening :: rest =>
        have hlt := lt_of_drop (drop_succ_of_drop hdrop)
        rw [parseTree_unlabelled hdrop] at h
        exact ihLoop _ _ (isLoop_unlabelled tokens) _ _ _ (by omega) h
      | .opening :: .word label :: rest =>
        have hlt := lt_of_drop (drop_succ_of_drop hdrop)
        rw [parseTree_labelled hdrop] at h
        exact ihLoop _ _ (isLoop_labelled tokens label) _ _ _ (by omega) h
    · intro label loop hloop acc cur fault hfuel h
      cases hdrop : tokens.drop cur with
      | nil =>
        rw [hloop.ended hdrop] at h
        cases h
        exact ⟨_, rfl⟩
      | cons token rest =>
        by_cases hclosing : token = .closing
        · subst hclosing
          rw [hloop.closing hdrop] at h
          cases h
        · rw [hloop.child hdrop hclosing] at h
          cases hchild : parseTree fuel tokens cur with
          | error fault' =>
            rw [hchild] at h
            cases h
            exact ihTree cur fault (by omega) hchild
          | ok read =>
            rw [hchild] at h
            obtain ⟨hreadable, hread⟩ := (sound hwords fuel).1 cur read.1 read.2 hchild
            refine ihLoop _ _ hloop _ read.2 _ ?_ h
            rw [hread.1]
            exact fuel_after_child hreadable.write_pos hread.2 hfuel

end Complete

section Printing
variable {text : List Char} {tree : Tree}

def Spelled (text : List Char) (tokens : List Token) : Prop :=
  ∀ s more, (∀ c ∈ s.head?, isDelimiter c = true) → Spells s more →
    Spells (text ++ s) (tokens ++ more)

theorem IsWord.spelled (h : IsWord text) : Spelled text [.word text] :=
  fun _ _ hends hs => .word h hends hs

theorem spelled_intersperse {parts : List (List Char)} {tokens : List (List Token)}
    (h : Forall₂ Spelled parts tokens) : Spelled (parts.intersperse [' ']).flatten tokens.flatten := by
  induction h with
  | nil =>
    intro s more _ hs
    simpa using hs
  | @cons part toks parts tokens hpart hparts ih =>
    intro s more hends hs
    cases hparts with
    | nil => simpa using hpart s more hends hs
    | @cons part' toks' parts tokens hpart' hparts =>
      have hrest := ih s more hends hs
      have hspace : Spells (' ' :: ((part' :: parts).intersperse [' ']).flatten ++ s)
          ((toks' :: tokens).flatten ++ more) := .space (by decide) hrest
      have hall := hpart _ _ (by simp [isDelimiter, WhiteSpace.isWhitespace, WhiteSpace.codes]) hspace
      simpa using hall

theorem spelled_bracket {parts : List (List Char)} {tokens : List (List Token)}
    (h : Forall₂ Spelled parts tokens) :
    Spelled (bracket parts) (.opening :: tokens.flatten ++ [.closing]) := by
  intro s more _ hs
  have hclosed : Spells (')' :: s) (.closing :: more) := .closing hs
  have hinside := spelled_intersperse h (')' :: s) (.closing :: more)
    (by simp [isDelimiter]) hclosed
  have hall := Spells.opening hinside
  simpa [bracket] using hall

theorem flatten_map_write (children : List Tree) : (children.map write).flatten = writeAll children := by
  induction children with
  | nil => simp
  | cons child children ih => simp [ih]

theorem printAll_eq_map (children : List Tree) : printAll children = children.map print := by
  induction children with
  | nil => rw [printAll, map_nil]
  | cons child children ih => rw [printAll, map_cons, ih]

theorem Readable.spelled_print (h : Readable tree) : Spelled (print tree) (write tree) := by
  induction h with
  | @leaf text hword =>
    exact hword.spelled
  | @group label children hlabel _ _ ih =>
    have hchildren : Forall₂ Spelled (children.map print) (children.map write) := by
      rw [forall₂_map_left_iff, forall₂_map_right_iff, forall₂_same]
      exact ih
    rw [write_group, print, printAll_eq_map]
    rcases hlabel with hempty | hlabel
    · have hall := spelled_bracket hchildren
      rw [flatten_map_write] at hall
      simpa [hempty] using hall
    · have hlabelled : Forall₂ Spelled (label :: children.map print)
          ([.word label] :: children.map write) := .cons hlabel.spelled hchildren
      have hall := spelled_bracket hlabelled
      have hnonempty : label.isEmpty = false := by simpa using hlabel.1
      rw [flatten_cons, flatten_map_write] at hall
      simpa [hnonempty, labelTokens] using hall

theorem Readable.tokenize_print (h : Readable tree) : tokenize (print tree) = write tree := by
  have hspells := h.spelled_print [] [] (by simp) .done
  rw [append_nil, append_nil] at hspells
  exact tokenize_of_spells hspells

end Printing

section Leaves
variable {tree : Tree} {children : List Tree}

/-- Read where no bracket stands before a leaf, a tree's bare words are its leaves. -/
def BareLeaves (tree : Tree) : Prop :=
  ∀ afterOpen tokens, (afterOpen = true → tree.isLeaf = false) →
    bareWords afterOpen (write tree ++ tokens) = leaves tree ++ bareWords false tokens

theorem bareWords_writeAll (hall : ∀ child ∈ children, BareLeaves child) (afterOpen : Bool)
    (tokens : List Token) (hfirst : afterOpen = true → ∀ child ∈ children.head?, child.isLeaf = false) :
    bareWords afterOpen (writeAll children ++ .closing :: tokens) =
      leavesAll children ++ bareWords false tokens := by
  induction children generalizing afterOpen with
  | nil => simp [bareWords, leavesAll]
  | cons child children ih =>
    have hchild := hall child mem_cons_self afterOpen (writeAll children ++ .closing :: tokens)
      (fun hopen => hfirst hopen child rfl)
    have hlater := ih (fun c hc => hall c (mem_cons_of_mem child hc)) false (by simp)
    rw [writeAll_cons, append_assoc, hchild, hlater, leavesAll, append_assoc]

theorem Readable.bareLeaves (h : Readable tree) : BareLeaves tree := by
  induction h with
  | @leaf text hword =>
    intro afterOpen tokens hbare
    cases afterOpen with
    | true => simp at hbare
    | false => simp [Tree.leaf, write, bareWords, leaves]
  | @group label children hlabel hfirst hall ih =>
    intro afterOpen tokens _
    have hleaves : leaves (.node label children none) = leavesAll children := by simp [leaves]
    rw [hleaves, write_group]
    rcases hlabel with hempty | hlabel
    · have hinside := bareWords_writeAll ih true tokens (fun _ => hfirst hempty)
      rw [hempty, labelTokens_nil]
      simpa [bareWords] using hinside
    · have hinside := bareWords_writeAll ih false tokens (by simp)
      rw [labelTokens_word hlabel]
      simpa [bareWords] using hinside

end Leaves

section Results
variable {tree : Tree} {tokens : List Token}

theorem Nested.append {tokens' : List Token} (h : Nested tokens) (h' : Nested tokens') :
    Nested (tokens ++ tokens') := by
  induction h with
  | nil => exact h'
  | word _ ih => exact .word ih
  | @group inner tokens hinner _ _ ih =>
    have hgroup := Nested.group hinner ih
    simpa using hgroup

variable {children : List Tree}

theorem nested_writeAll (h : ∀ child ∈ children, Nested (write child)) : Nested (writeAll children) := by
  induction children with
  | nil => simpa using Nested.nil
  | cons child children ih =>
    exact (h child mem_cons_self).append (ih (fun c hc => h c (mem_cons_of_mem child hc)))

theorem nested_inside {label : List Char} (hlabel : label = [] ∨ IsWord label)
    (h : ∀ child ∈ children, Nested (write child)) : Nested (labelTokens label ++ writeAll children) := by
  have hchildren := nested_writeAll h
  rcases hlabel with hempty | hlabel
  · rw [hempty]
    exact hchildren
  · rw [labelTokens_word hlabel]
    exact .word hchildren

theorem Readable.nested_write (h : Readable tree) : Nested (write tree) := by
  induction h with
  | leaf _ =>
    exact .word .nil
  | group hlabel _ _ ih =>
    exact .group (nested_inside hlabel ih) .nil

theorem Readable.accepted_write (h : Readable tree) : Accepted (write tree) := by
  cases h with
  | leaf _ => exact .inl ⟨_, write_leaf _⟩
  | group hlabel _ hall =>
    exact .inr ⟨_, nested_inside hlabel (fun child hchild => (hall child hchild).nested_write),
      write_group _ _⟩

theorem exists_group {inner : List Token}
    (hall : ∀ child ∈ children, Readable child) (hwrite : writeAll children = inner) :
    ∃ tree, Readable tree ∧ write tree = .opening :: inner ++ [.closing] := by
  cases children with
  | nil =>
    refine ⟨.node [] [] none, .group (.inl rfl) (by simp) (by simp), ?_⟩
    rw [write_group, ← hwrite]
    rfl
  | cons first children =>
    have hlater : ∀ child ∈ children, Readable child :=
      fun child hchild => hall child (mem_cons_of_mem first hchild)
    rcases (hall first mem_cons_self).starts with ⟨text, hword, hleaf⟩ | ⟨hgroup, _⟩
    · -- a leaf in the first place is read as the label
      refine ⟨.node text children none,
        .group (.inr hword) (fun hempty => absurd hempty hword.1) hlater, ?_⟩
      rw [write_group, labelTokens_word hword, ← hwrite, hleaf, writeAll_cons, write_leaf]
    · refine ⟨.node [] (first :: children) none, .group (.inl rfl) ?_ hall, ?_⟩
      · intro _ child hchild
        have heq : first = child := by simpa using hchild
        rw [← heq]
        exact hgroup
      · rw [write_group, ← hwrite]
        rfl

theorem exists_writeAll (h : Nested tokens) (hwords : ∀ text, .word text ∈ tokens → IsWord text) :
    ∃ children, (∀ child ∈ children, Readable child) ∧ writeAll children = tokens := by
  induction h with
  | nil => exact ⟨[], by simp, writeAll_nil⟩
  | @word text tokens _ ih =>
    obtain ⟨children, hall, hwrite⟩ := ih (fun t ht => hwords t (mem_cons_of_mem _ ht))
    refine ⟨.leaf text :: children, ?_, ?_⟩
    · intro child hchild
      rcases mem_cons.mp hchild with heq | hchild
      · rw [heq]
        exact .leaf (hwords text mem_cons_self)
      · exact hall child hchild
    · rw [writeAll_cons, write_leaf, hwrite, singleton_append]
  | @group inner tokens _ _ ihInner ihLater =>
    obtain ⟨inside, hinside, hwriteInside⟩ := ihInner (fun t ht => hwords t (by simp [ht]))
    obtain ⟨tree, htree, hwriteTree⟩ := exists_group hinside hwriteInside
    obtain ⟨children, hall, hwrite⟩ := ihLater (fun t ht => hwords t (by simp [ht]))
    refine ⟨tree :: children, ?_, ?_⟩
    · intro child hchild
      rcases mem_cons.mp hchild with heq | hchild
      · rw [heq]
        exact htree
      · exact hall child hchild
    · rw [writeAll_cons, hwriteTree, hwrite]
      simp

theorem exists_write (h : Accepted tokens) (hwords : ∀ text, .word text ∈ tokens → IsWord text) :
    ∃ tree, Readable tree ∧ write tree = tokens := by
  rcases h with ⟨text, heq⟩ | ⟨inner, hinner, heq⟩
  · refine ⟨.leaf text, .leaf (hwords text (by simp [heq])), ?_⟩
    rw [write_leaf, heq]
  · obtain ⟨children, hall, hwrite⟩ := exists_writeAll hinner (fun t ht => hwords t (by simp [heq, ht]))
    rw [heq]
    exact exists_group hall hwrite

theorem isWord_of_tokenize (s : List Char) : ∀ text, .word text ∈ tokenize s → IsWord text :=
  isWord_of_spells (spells_iff.mpr rfl)

theorem parse_iff {s : List Char} :
    parseBracketNotation s = .ok tree ↔ Readable tree ∧ tokenize s = write tree := by
  have hwords := isWord_of_tokenize s
  constructor
  · intro h
    simp only [parseBracketNotation] at h
    split at h
    · cases h
    · split at h
      · cases h
      · rename_i read consumed hread
        split at h
        · cases h
        · rename_i hconsumed
          cases h
          obtain ⟨hreadable, hbetween⟩ := (sound hwords _).1 0 _ _ hread
          have hall : consumed = (tokenize s).length := by simpa using hconsumed
          have hdrop := hbetween.2
          rw [hall, drop_length, append_nil, drop_zero] at hdrop
          exact ⟨hreadable, hdrop⟩
  · rintro ⟨hreadable, htokens⟩
    have hread := (complete (tokenize s) (tokenizedFuel (tokenize s))).1 tree 0 [] hreadable
      (by simpa using htokens) (by simp [tokenizedFuel])
    have hpos := hreadable.write_pos
    rw [← htokens] at hread hpos
    have hnonempty := ne_nil_of_length_pos hpos
    simp [parseBracketNotation, hnonempty, hread]

theorem parse_fault {s : List Char} {fault : Fault} (h : parseBracketNotation s = .error fault) :
    ∃ e, fault = .parse e := by
  simp only [parseBracketNotation] at h
  split at h
  · cases h
    exact ⟨_, rfl⟩
  · split at h
    · rename_i hread
      cases h
      exact (faults (isWord_of_tokenize s) _).1 0 fault (by simp [tokenizedFuel]) hread
    · split at h
      · cases h
        exact ⟨_, rfl⟩
      · cases h

/-- The parser ends on every text. It returns a tree exactly where the tokens spell one word or one well-
  nested group; printed, it is read back as itself, with the bare words as leaves. -/
theorem parseBracketNotation_spec (s : List Char) :
    (∀ fault, parseBracketNotation s = .error fault → ∃ e, fault = .parse e) ∧
    (∀ tokens, Spells s tokens → ((∃ tree, parseBracketNotation s = .ok tree) ↔ Accepted tokens)) ∧
    Spells s (tokenize s) ∧ ∀ tree, parseBracketNotation s = .ok tree →
      parseBracketNotation (print tree) = .ok tree ∧
        leaves tree = bareWords false (tokenize s) := by
  refine ⟨fun fault => parse_fault, ?_, spells_iff.mpr rfl, ?_⟩
  · intro tokens hspells
    have htokens := spells_iff.mp hspells
    constructor
    · rintro ⟨tree, h⟩
      obtain ⟨hreadable, hwrite⟩ := parse_iff.mp h
      rw [← htokens, hwrite]
      exact hreadable.accepted_write
    · intro haccepted
      obtain ⟨tree, hreadable, hwrite⟩ := exists_write haccepted (isWord_of_spells hspells)
      exact ⟨tree, parse_iff.mpr ⟨hreadable, htokens.trans hwrite.symm⟩⟩
  · intro tree h
    obtain ⟨hreadable, hwrite⟩ := parse_iff.mp h
    refine ⟨parse_iff.mpr ⟨hreadable, hreadable.tokenize_print⟩, ?_⟩
    have hbare := hreadable.bareLeaves false [] (by simp)
    rw [append_nil, ← hwrite] at hbare
    simpa [bareWords] using hbare.symm

/-- A bare word in a group without a label is a leaf there, as after a label. -/
example : parseBracketNotation "((S a) b)".toList =
    .ok (.node [] [.node ['S'] [.leaf ['a']] none, .leaf ['b']] none) := by rfl

end Results

end Batchalign.Utseg
