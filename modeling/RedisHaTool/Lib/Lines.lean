import RedisHaTool.Lib.Text

/-!
# Lines of a text

`str::lines` and the prefixes of a line, and what becomes of a text that was put
together out of lines: it falls into the same ones again, and where a blank line
ends it there is no other before that, however much of it is there yet.
-/

namespace RedisHaTool.Lib

def stripCr (line : Text) : Text :=
  if line.getLast? = some '\r' then line.dropLast else line

/-- The rest of a text, behind what there is of a line. -/
def linesFrom (line : Text) : Text → List Text
  | [] => if line = [] then [] else [line]
  | c :: t => if c = '\n' then stripCr line :: linesFrom [] t else linesFrom (line ++ [c]) t

/-- `str::lines`: a line ends at a line feed, or at both of a carriage return and
a line feed, and the last one may go without. -/
def lines (t : Text) : List Text := linesFrom [] t

/-- `str::strip_prefix`. -/
def stripPrefix (head t : Text) : Option Text :=
  if head <+: t then some (t.drop head.length) else none

/-- As often as the text begins with it, and so many times at most. -/
def stripPrefixes (head : Text) : Nat → Text → Text
  | 0, t => t
  | n + 1, t =>
      match stripPrefix head t with
      | some rest => stripPrefixes head n rest
      | none => t

/-- `str::trim_start_matches`, of a text that is not empty. -/
def trimStartMatches (head t : Text) : Text := stripPrefixes head t.length t

/-! ## Prefixes -/

variable {head t : Text}

theorem stripPrefix_append (head t : Text) : stripPrefix head (head ++ t) = some t := by
  rw [stripPrefix, if_pos (List.prefix_append head t), List.drop_left]

theorem stripPrefix_eq_some_iff {rest : Text} :
    stripPrefix head t = some rest ↔ t = head ++ rest := by
  constructor
  · intro h
    rw [stripPrefix] at h
    split at h
    · next hprefix =>
        obtain ⟨rest', rfl⟩ := hprefix
        rw [List.drop_left] at h
        rw [Option.some.inj h]
    · cases h
  · rintro rfl
    exact stripPrefix_append head rest

/-- Where it stands once, it is taken off once. -/
theorem trimStartMatches_once (hhead : head ≠ []) (h : ¬ head <+: t) :
    trimStartMatches head (head ++ t) = t := by
  have hlen : (head ++ t).length = (head.length - 1 + t.length) + 1 := by
    have hpos := List.length_pos_of_ne_nil hhead
    rw [List.length_append]
    omega
  rw [trimStartMatches, hlen, stripPrefixes, stripPrefix_append]
  cases head.length - 1 + t.length with
  | zero => rfl
  | succ n =>
      show stripPrefixes head (n + 1) t = t
      rw [stripPrefixes, stripPrefix, if_neg h]

/-! ## Lines put together -/

/-- What ends a line on the wire. -/
def lineEnd : Text := ['\r', '\n']

theorem linesFrom_append {line body : Text} (h : '\n' ∉ body) (t : Text) :
    linesFrom line (body ++ t) = linesFrom (line ++ body) t := by
  induction body generalizing line with
  | nil => rw [List.nil_append, List.append_nil]
  | cons c body ih =>
      obtain ⟨hc, hbody⟩ := not_or.1 (mt List.mem_cons.2 h)
      rw [List.cons_append, linesFrom, if_neg (Ne.symm hc), ih hbody, List.append_assoc]
      rfl

theorem stripCr_append (line : Text) : stripCr (line ++ ['\r']) = line := by
  rw [stripCr, if_pos List.getLast?_concat, List.dropLast_concat]

theorem lines_append {line : Text} (h : '\n' ∉ line) (t : Text) :
    lines (line ++ lineEnd ++ t) = line :: lines t := by
  have hbody : '\n' ∉ line ++ ['\r'] := by simp [h]
  have hsplit : line ++ lineEnd ++ t = (line ++ ['\r']) ++ '\n' :: t := by simp [lineEnd]
  rw [hsplit, lines, linesFrom_append hbody, List.nil_append, linesFrom, if_pos rfl,
    stripCr_append]
  rfl

theorem lines_flatMap {bodies : List Text} (h : ∀ body ∈ bodies, '\n' ∉ body) (t : Text) :
    lines (bodies.flatMap (· ++ lineEnd) ++ t) = bodies ++ lines t := by
  induction bodies with
  | nil => rfl
  | cons body bodies ih =>
      rw [List.flatMap_cons, List.append_assoc, lines_append (h body List.mem_cons_self),
        ih fun body' h' => h body' (List.mem_cons_of_mem body h'), List.cons_append]

/-! ## The blank line -/

variable {bodies : List Bytes} {front rest : Bytes}

/-- A line that is not empty does not begin with its end. -/
theorem blank_at_once (h : ∀ body ∈ bodies, body ≠ [] ∧ (13 : UInt8) ∉ body)
    (heq : bodies.flatMap (· ++ [13, 10]) ++ [13, 10] = 13 :: 10 :: rest) : rest = [] := by
  cases bodies with
  | nil =>
      injection heq with _ heq
      injection heq with _ heq
      exact heq.symm
  | cons body bodies =>
      obtain ⟨hne, hcr⟩ := h body List.mem_cons_self
      obtain ⟨c, cs, rfl⟩ := List.exists_cons_of_ne_nil hne
      injection heq with hc _
      exact absurd (hc ▸ List.mem_cons_self) hcr

/-- Behind lines that are not empty, a blank one is the last thing there is. -/
theorem blank_is_last (h : ∀ body ∈ bodies, body ≠ [] ∧ (13 : UInt8) ∉ body)
    (heq : bodies.flatMap (· ++ [13, 10]) ++ [13, 10] = front ++ 13 :: 10 :: 13 :: 10 :: rest) :
    rest = [] := by
  induction bodies generalizing front with
  | nil =>
      have hlen := congrArg List.length heq
      simp only [List.flatMap_nil, List.nil_append, List.length_append, List.length_cons,
        List.length_nil] at hlen
      omega
  | cons body bodies ih =>
      obtain ⟨-, hcr⟩ := h body List.mem_cons_self
      have hrest := fun body' h' => h body' (List.mem_cons_of_mem body h')
      rw [List.flatMap_cons, List.append_assoc, List.append_assoc] at heq
      -- The line ends at the first carriage return there is.
      rcases List.append_eq_append_iff.1 heq with ⟨more, rfl, hmore⟩ | ⟨more, rfl, hmore⟩
      · rcases more with _ | ⟨a, _ | ⟨b, more⟩⟩
        · injection hmore with _ hmore
          injection hmore with _ hmore
          exact blank_at_once hrest hmore
        · injection hmore with _ hmore
          injection hmore with hlf _
          cases hlf
        · injection hmore with _ hmore
          injection hmore with _ hmore
          exact ih hrest hmore
      · cases more with
        | nil =>
            injection hmore with _ hmore
            injection hmore with _ hmore
            exact blank_at_once hrest hmore.symm
        | cons a more =>
            injection hmore with ha _
            exact absurd (by rw [← ha]; simp) hcr

end RedisHaTool.Lib
