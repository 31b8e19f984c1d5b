import RedisHaTool.Lib.Text

/-!
# The trie

`filter/trie.rs`. A node's children are an association list in place of the hash
map, one entry a byte. The loops of the source walk a cursor down from the root;
here they recurse on the key.

What a trie is for is the set of words inserted into it, and `exact_match` is
membership: the other questions come down to that one.
-/

namespace RedisHaTool.Filter

open Lib

inductive TrieNode where
  | mk (children : List (UInt8 × TrieNode)) (isEnd : Bool)

def TrieNode.children : TrieNode → List (UInt8 × TrieNode)
  | .mk children _ => children

def TrieNode.isEnd : TrieNode → Bool
  | .mk _ isEnd => isEnd

def TrieNode.new : TrieNode := .mk [] false

/-- `children.get(byte)`. -/
def TrieNode.get (node : TrieNode) (byte : UInt8) : Option TrieNode :=
  node.children.lookup byte

/-- Puts a node in the place of a child. -/
def TrieNode.set (node : TrieNode) (byte : UInt8) (child : TrieNode) : TrieNode :=
  .mk ((byte, child) :: node.children.filter (·.1 != byte)) node.isEnd

/-- `Trie::insert`, from a node on. -/
def TrieNode.insert : TrieNode → Bytes → TrieNode
  | node, [] => .mk node.children true
  | node, byte :: key =>
      node.set byte (((node.get byte).getD .new).insert key)

/-- `Trie::exact_match`, from a node on. -/
def TrieNode.exactMatch : TrieNode → Bytes → Bool
  | node, [] => node.isEnd
  | node, byte :: key =>
      match node.get byte with
      | some next => next.exactMatch key
      | none => false

/-- `Trie::starts_with`, from a node on. -/
def TrieNode.startsWith : TrieNode → Bytes → Bool
  | _, [] => true
  | node, byte :: pre =>
      match node.get byte with
      | some next => next.startsWith pre
      | none => false

/-- `Trie::matches_prefix`, from a node on. -/
def TrieNode.matchesPrefix : TrieNode → Bytes → Bool
  | node, [] => node.isEnd
  | node, byte :: key =>
      if node.isEnd then true
      else
        match node.get byte with
        | some next => next.matchesPrefix key
        | none => false

structure Trie where
  root : TrieNode

namespace Trie

def new : Trie := { root := .new }

def insert (trie : Trie) (key : Bytes) : Trie := { root := trie.root.insert key }

def exactMatch (trie : Trie) (key : Bytes) : Bool := trie.root.exactMatch key

def startsWith (trie : Trie) (pre : Bytes) : Bool := trie.root.startsWith pre

def matchesPrefix (trie : Trie) (key : Bytes) : Bool := trie.root.matchesPrefix key

def isEmpty (trie : Trie) : Bool := trie.root.children.isEmpty && !trie.root.isEnd

end Trie

/-! ## Nodes -/

@[simp] theorem TrieNode.get_set_self (node : TrieNode) (byte : UInt8)
    (child : TrieNode) : (node.set byte child).get byte = some child := by
  simp [TrieNode.get, TrieNode.set, TrieNode.children]

theorem TrieNode.get_set_ne (node : TrieNode) {byte other : UInt8}
    (child : TrieNode) (h : other ≠ byte) :
    (node.set byte child).get other = node.get other := by
  have hfilter : ∀ cs : List (UInt8 × TrieNode),
      (cs.filter (·.1 != byte)).lookup other = cs.lookup other := by
    intro cs
    induction cs with
    | nil => rfl
    | cons c cs ih =>
        obtain ⟨b, n⟩ := c
        by_cases hb : b = byte
        · subst hb
          have hne : (other == b) = false := by simpa using h
          simp [List.lookup_cons, hne, ih]
        · simp [hb, List.lookup_cons, ih]
  have hne : (other == byte) = false := by simpa using h
  show ((byte, child) :: node.children.filter (·.1 != byte)).lookup other
    = node.children.lookup other
  rw [List.lookup_cons, hne]
  exact hfilter node.children

@[simp] theorem TrieNode.isEnd_set (node : TrieNode) (byte : UInt8)
    (child : TrieNode) : (node.set byte child).isEnd = node.isEnd := rfl

@[simp] theorem TrieNode.exactMatch_new (key : Bytes) :
    TrieNode.new.exactMatch key = false := by
  cases key with
  | nil => rfl
  | cons byte key => rfl

/-- Inserting a word adds that word and no other. -/
theorem TrieNode.exactMatch_insert (node : TrieNode) (word key : Bytes) :
    (node.insert word).exactMatch key = true ↔ key = word ∨ node.exactMatch key = true := by
  induction word generalizing node key with
  | nil =>
      cases key with
      | nil => simp [TrieNode.insert, TrieNode.exactMatch, TrieNode.isEnd]
      | cons b key =>
          show (TrieNode.exactMatch _ (b :: key)) = true ↔ _
          simp [TrieNode.insert, TrieNode.exactMatch, TrieNode.get, TrieNode.children]
  | cons byte word ih =>
      cases key with
      | nil => simp [TrieNode.insert, TrieNode.exactMatch]
      | cons b key =>
          by_cases hb : b = byte
          · subst hb
            rw [TrieNode.insert, TrieNode.exactMatch, TrieNode.get_set_self]
            show TrieNode.exactMatch _ key = true ↔ _
            rw [ih, TrieNode.exactMatch, List.cons_eq_cons]
            cases hget : node.get b with
            | none => simp
            | some next => simp
          · rw [TrieNode.insert, TrieNode.exactMatch, TrieNode.get_set_ne node _ hb,
              ← TrieNode.exactMatch]
            have hne : b :: key ≠ byte :: word := fun h => hb (List.cons.inj h).1
            simp [hne]

/-- The walk down the key passes every word that begins it. -/
theorem TrieNode.matchesPrefix_iff (node : TrieNode) (key : Bytes) :
    node.matchesPrefix key = true ↔ ∃ word, word <+: key ∧ node.exactMatch word = true := by
  induction key generalizing node with
  | nil =>
      constructor
      · intro h
        exact ⟨[], List.prefix_rfl, h⟩
      · rintro ⟨word, hword, h⟩
        obtain rfl := List.prefix_nil.1 hword
        exact h
  | cons b key ih =>
      rw [TrieNode.matchesPrefix]
      by_cases hend : node.isEnd = true
      · rw [if_pos hend]
        exact ⟨fun _ => ⟨[], List.nil_prefix, hend⟩, fun _ => rfl⟩
      · rw [if_neg hend]
        constructor
        · intro h
          split at h
          · next next hget =>
              obtain ⟨word, hword, hmatch⟩ := (ih next).1 h
              refine ⟨b :: word, (List.prefix_cons_inj b).2 hword, ?_⟩
              rw [TrieNode.exactMatch, hget]
              exact hmatch
          · cases h
        · rintro ⟨word, hword, hmatch⟩
          cases word with
          | nil => exact absurd hmatch hend
          | cons c word =>
              obtain ⟨rfl, htail⟩ := List.cons_prefix_cons.1 hword
              rw [TrieNode.exactMatch] at hmatch
              split at hmatch
              · next next hget =>
                  exact (ih next).2 ⟨word, htail, hmatch⟩
              · cases hmatch

theorem TrieNode.startsWith_new (pre : Bytes) :
    TrieNode.new.startsWith pre = true ↔ pre = [] := by
  cases pre with
  | nil => simp [TrieNode.startsWith]
  | cons byte pre => simp [TrieNode.startsWith, TrieNode.new, TrieNode.get, TrieNode.children]

/-- Inserting a word adds the nodes on the way to it and no other, so that no
node is left without a word below it. -/
theorem TrieNode.startsWith_insert (node : TrieNode) (word pre : Bytes) :
    (node.insert word).startsWith pre = true ↔
      pre <+: word ∨ node.startsWith pre = true := by
  induction word generalizing node pre with
  | nil =>
      cases pre with
      | nil => simp [TrieNode.startsWith]
      | cons b pre =>
          show TrieNode.startsWith _ (b :: pre) = true ↔ _
          simp [TrieNode.insert, TrieNode.startsWith, TrieNode.get, TrieNode.children]
  | cons byte word ih =>
      cases pre with
      | nil => simp [TrieNode.startsWith]
      | cons b pre =>
          by_cases hb : b = byte
          · subst hb
            rw [TrieNode.insert, TrieNode.startsWith, TrieNode.get_set_self]
            show TrieNode.startsWith _ pre = true ↔ _
            rw [ih, TrieNode.startsWith, List.prefix_cons_inj]
            cases hget : node.get b with
            | none =>
                show pre <+: word ∨ TrieNode.new.startsWith pre = true ↔ _
                rw [TrieNode.startsWith_new]
                constructor
                · rintro (h | rfl)
                  · exact .inl h
                  · exact .inl List.nil_prefix
                · rintro (h | h)
                  · exact .inl h
                  · cases h
            | some next => exact Iff.rfl
          · rw [TrieNode.insert, TrieNode.startsWith, TrieNode.get_set_ne node _ hb]
            have hne : ¬ b :: pre <+: byte :: word :=
              fun h => hb (List.cons_prefix_cons.1 h).1
            simp [hne, TrieNode.startsWith]

theorem TrieNode.not_new_insert (node : TrieNode) (word : Bytes) :
    ((node.insert word).children.isEmpty && !(node.insert word).isEnd) = false := by
  cases word with
  | nil => simp [TrieNode.insert, TrieNode.isEnd]
  | cons byte word => simp [TrieNode.insert, TrieNode.set, TrieNode.children]

/-! ## The trie of some words -/

namespace Trie

/-- The words inserted one after another, as each of the loops of `from_config`
does. -/
def insertAll (trie : Trie) (words : List Bytes) : Trie := words.foldl insert trie

theorem exactMatch_insertAll (trie : Trie) (words : List Bytes) (key : Bytes) :
    (trie.insertAll words).exactMatch key = true ↔
      key ∈ words ∨ trie.exactMatch key = true := by
  induction words generalizing trie with
  | nil => simp [insertAll]
  | cons word words ih =>
      have hword : (trie.insert word).exactMatch key = true ↔
          key = word ∨ trie.exactMatch key = true :=
        trie.root.exactMatch_insert word key
      rw [insertAll, List.foldl_cons, ← insertAll, ih, hword, List.mem_cons]
      tauto

theorem exactMatch_new_insertAll (words : List Bytes) (key : Bytes) :
    (new.insertAll words).exactMatch key = true ↔ key ∈ words := by
  have hnew : new.exactMatch key = false := TrieNode.exactMatch_new key
  rw [exactMatch_insertAll, hnew]
  simp

theorem matchesPrefix_new_insertAll (words : List Bytes) (key : Bytes) :
    (new.insertAll words).matchesPrefix key = true ↔ ∃ word ∈ words, word <+: key := by
  rw [matchesPrefix, TrieNode.matchesPrefix_iff]
  constructor
  · rintro ⟨word, hword, hmatch⟩
    exact ⟨word, (exactMatch_new_insertAll words word).1 hmatch, hword⟩
  · rintro ⟨word, hmem, hword⟩
    exact ⟨word, hword, (exactMatch_new_insertAll words word).2 hmem⟩

theorem startsWith_insertAll (trie : Trie) (words : List Bytes) (pre : Bytes) :
    (trie.insertAll words).startsWith pre = true ↔
      (∃ word ∈ words, pre <+: word) ∨ trie.startsWith pre = true := by
  induction words generalizing trie with
  | nil => simp [insertAll]
  | cons word words ih =>
      have hword : (trie.insert word).startsWith pre = true ↔
          pre <+: word ∨ trie.startsWith pre = true :=
        trie.root.startsWith_insert word pre
      rw [insertAll, List.foldl_cons, ← insertAll, ih, hword, List.exists_mem_cons_iff, or_assoc]
      exact or_left_comm

/-- The root alone answers for the empty prefix before anything is inserted. -/
theorem startsWith_new_insertAll (words : List Bytes) (pre : Bytes) (hne : words ≠ []) :
    (new.insertAll words).startsWith pre = true ↔ ∃ word ∈ words, pre <+: word := by
  rw [startsWith_insertAll, startsWith, new, TrieNode.startsWith_new]
  constructor
  · rintro (h | rfl)
    · exact h
    · obtain ⟨word, hword⟩ := List.exists_mem_of_ne_nil words hne
      exact ⟨word, hword, List.nil_prefix⟩
  · exact .inl

theorem isEmpty_insertAll (trie : Trie) (words : List Bytes) :
    (trie.insertAll words).isEmpty = true ↔ words = [] ∧ trie.isEmpty = true := by
  induction words generalizing trie with
  | nil => simp [insertAll]
  | cons word words ih =>
      have hword : (trie.insert word).isEmpty = false := trie.root.not_new_insert word
      rw [insertAll, List.foldl_cons, ← insertAll, ih, hword]
      simp

theorem isEmpty_new_insertAll (words : List Bytes) :
    (new.insertAll words).isEmpty = true ↔ words = [] := by
  rw [isEmpty_insertAll]
  exact and_iff_left rfl

/-- A trie is the set of the words inserted into it: every question it answers is
one about that set. -/
theorem insertAll_represents (words : List Bytes) (key : Bytes) :
    ((new.insertAll words).exactMatch key = true ↔ key ∈ words) ∧
      ((new.insertAll words).matchesPrefix key = true ↔ ∃ word ∈ words, word <+: key) ∧
      ((new.insertAll words).isEmpty = true ↔ words = []) ∧
      (words ≠ [] →
        ((new.insertAll words).startsWith key = true ↔ ∃ word ∈ words, key <+: word)) :=
  ⟨exactMatch_new_insertAll words key, matchesPrefix_new_insertAll words key,
    isEmpty_new_insertAll words, startsWith_new_insertAll words key⟩

end Trie

end RedisHaTool.Filter
