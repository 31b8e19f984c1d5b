import Mathlib.Computability.Language
import RedisHaTool.Lib.Reader

/-!
# Formats made of fields

A format whose fields follow one another is a language over the fields, and the
bytes of a sequence of fields are those of each in turn. A reader scans the
language if it answers exactly over the bytes of its sequences, and if it fails
exactly where it cannot read a field: it has then taken the fields before, and of
that one what a reader takes of a field it cannot read. The rules follow the
reader, in sequence and in counted loops, and the language grows with it.

How a reader of one field may fail is told of the bytes alone, as `Stops` of the
format. It is told which kind of fault it is, and not which error.
-/

namespace RedisHaTool.Lib

variable {ε α β φ ι : Type}

/-- A fault, but which error it is. -/
def Fault.kind : Fault ε → Fault Unit
  | .err _ => .err ()
  | .panic => .panic
  | .fuel => .fuel

/-- How fields are written, and where a field like this one cannot be read: the
fault, what has been taken of the input by then and what is left of it. -/
structure FieldFormat (φ : Type) where
  bytes : φ → Bytes
  Stops : φ → Fault Unit → Bytes → Bytes → Prop

namespace FieldFormat

variable (F : FieldFormat φ)

def allBytes (fs : List φ) : Bytes := fs.flatMap F.bytes

@[simp] theorem allBytes_nil : F.allBytes [] = [] := rfl

@[simp] theorem allBytes_singleton (f : φ) : F.allBytes [f] = F.bytes f :=
  List.flatMap_singleton ..

@[simp] theorem allBytes_append (fs gs : List φ) :
    F.allBytes (fs ++ gs) = F.allBytes fs ++ F.allBytes gs :=
  List.flatMap_append

/-- The fields of some sequence of the language come, up to one that cannot be
read. -/
def StopsIn (L : Language φ) (k : Fault Unit) (taken left : Bytes) : Prop :=
  ∃ done f more broken, done ++ f :: more ∈ L ∧ taken = F.allBytes done ++ broken ∧
    F.Stops f k broken left

variable {F} {L K : Language φ} {k : Fault Unit} {taken left : Bytes}

theorem not_stopsIn_one : ¬ F.StopsIn 1 k taken left := by
  rintro ⟨done, f, more, broken, hmem, -, -⟩
  exact absurd ((Language.mem_one _).1 hmem) (by simp)

theorem StopsIn.mono (h : F.StopsIn L k taken left) (hle : ∀ fs ∈ L, fs ∈ K) :
    F.StopsIn K k taken left := by
  obtain ⟨done, f, more, broken, hmem, htaken, hstops⟩ := h
  exact ⟨done, f, more, broken, hle _ hmem, htaken, hstops⟩

/-- In the first part, which can be completed. -/
theorem StopsIn.inLeft (h : F.StopsIn L k taken left) {gs : List φ} (hgs : gs ∈ K) :
    F.StopsIn (L * K) k taken left := by
  obtain ⟨done, f, more, broken, hmem, htaken, hstops⟩ := h
  refine ⟨done, f, more ++ gs, broken, ?_, htaken, hstops⟩
  have hall := Language.append_mem_mul hmem hgs
  rwa [List.append_assoc, List.cons_append] at hall

/-- In the second part, after all of the first. -/
theorem StopsIn.inRight (h : F.StopsIn K k taken left) {fs : List φ} (hfs : fs ∈ L) :
    F.StopsIn (L * K) k (F.allBytes fs ++ taken) left := by
  obtain ⟨done, f, more, broken, hmem, rfl, hstops⟩ := h
  refine ⟨fs ++ done, f, more, broken, ?_, ?_, hstops⟩
  · rw [List.append_assoc]
    exact Language.append_mem_mul hfs hmem
  · rw [allBytes_append, List.append_assoc]

/-- In one part or the other. -/
theorem StopsIn.of_mul (h : F.StopsIn (L * K) k taken left) :
    F.StopsIn L k taken left ∨
      ∃ fs ∈ L, ∃ taken', taken = F.allBytes fs ++ taken' ∧ F.StopsIn K k taken' left := by
  obtain ⟨done, f, more, broken, hmem, rfl, hstops⟩ := h
  obtain ⟨fs, hfs, gs, hgs, heq⟩ := Language.mem_mul.1 hmem
  rcases List.append_eq_append_iff.1 heq with ⟨done', rfl, rfl⟩ | ⟨more', rfl, hmore⟩
  · refine .inr ⟨fs, hfs, F.allBytes done' ++ broken, ?_, done', f, more, broken, hgs, rfl, hstops⟩
    rw [allBytes_append, List.append_assoc]
  · cases more' with
    | nil =>
        -- The field is the first one of the second part.
        rw [List.append_nil] at hfs
        refine .inr ⟨done, hfs, broken, rfl, [], f, more, broken, ?_, rfl, hstops⟩
        rwa [List.nil_append, hmore]
    | cons g more' =>
        obtain ⟨rfl, rfl⟩ := List.cons.inj hmore
        exact .inl ⟨done, f, more', broken, hfs, rfl, hstops⟩

end FieldFormat

/-- The reader answers `a` over the sequences of `L a`, and fails at a field that
it cannot read. -/
structure Scans (F : FieldFormat φ) (m : ByteReader ε α) (L : α → Language φ) : Prop where
  inhabited : ∃ a fs, fs ∈ L a
  reads : ∀ bs a rest, m bs = .ok a rest → ∃ fs ∈ L a, bs = F.allBytes fs ++ rest
  whole : ∀ a, ∀ fs ∈ L a, Reads m (F.allBytes fs) a
  fails : ∀ bs e rest, m bs = .error e rest →
    ∃ a taken, bs = taken ++ rest ∧ F.StopsIn (L a) e.kind taken rest
  stopped : ∀ a k taken left, F.StopsIn (L a) k taken left →
    ∃ e, e.kind = k ∧ m (taken ++ left) = .error e left

section Rules

variable {F : FieldFormat φ}

/-- One field of some kind. -/
def oneOf (mk : ι → φ) : Language φ := {fs | ∃ x, fs = [mk x]}

/-- A reader of one field of some kind: every input begins with one or with what
cannot be read. -/
structure ReadsField (F : FieldFormat φ) (m : ByteReader ε α) (mk : ι → φ) : Prop where
  cases : ∀ bs, (∃ x rest, bs = F.bytes (mk x) ++ rest) ∨
    ∃ x k taken left, bs = taken ++ left ∧ F.Stops (mk x) k taken left
  whole : ∀ x, ∃ a, Reads m (F.bytes (mk x)) a
  stopped : ∀ x k taken left, F.Stops (mk x) k taken left →
    ∃ e, e.kind = k ∧ m (taken ++ left) = .error e left

theorem ReadsField.scans {m : ByteReader ε α} {mk : ι → φ} (h : ReadsField F m mk) :
    Scans F m fun a => {fs | ∃ x, Reads m (F.bytes (mk x)) a ∧ fs = [mk x]} where
  inhabited := by
    obtain ⟨x⟩ : Nonempty ι := by
      rcases h.cases [] with ⟨x, -⟩ | ⟨x, -⟩
      · exact ⟨x⟩
      · exact ⟨x⟩
    obtain ⟨a, hreads⟩ := h.whole x
    exact ⟨a, [mk x], x, hreads, rfl⟩
  reads bs a rest heq := by
    rcases h.cases bs with ⟨x, rest', rfl⟩ | ⟨x, k, taken, left, rfl, hstops⟩
    · obtain ⟨a', hreads⟩ := h.whole x
      cases (hreads rest').symm.trans heq
      exact ⟨[mk x], ⟨x, hreads, rfl⟩, by rw [F.allBytes_singleton]⟩
    · obtain ⟨e, -, herror⟩ := h.stopped x k taken left hstops
      cases herror.symm.trans heq
  whole := by
    rintro a _ ⟨x, hreads, rfl⟩
    rw [F.allBytes_singleton]
    exact hreads
  fails bs e rest heq := by
    rcases h.cases bs with ⟨x, rest', rfl⟩ | ⟨x, k, taken, left, rfl, hstops⟩
    · obtain ⟨a, hreads⟩ := h.whole x
      cases (hreads rest').symm.trans heq
    · obtain ⟨a, hreads⟩ := h.whole x
      obtain ⟨e', rfl, herror⟩ := h.stopped x k taken left hstops
      cases herror.symm.trans heq
      exact ⟨a, taken, rfl, [], mk x, [], taken, ⟨x, hreads, rfl⟩, rfl, hstops⟩
  stopped := by
    rintro a k taken left ⟨done, f, more, broken, ⟨x, -, heq⟩, rfl, hstops⟩
    obtain ⟨rfl, hsingle⟩ : done = [] ∧ f :: more = [mk x] := by
      cases done with
      | nil => exact ⟨rfl, heq⟩
      | cons d done => exact absurd (List.cons.inj heq).2 (by simp)
    obtain ⟨rfl, -⟩ := List.cons.inj hsingle
    exact h.stopped x k broken left hstops

theorem Scans.done : Scans F (pure () : ByteReader ε Unit) fun _ => 1 where
  inhabited := ⟨(), [], Language.nil_mem_one⟩
  reads bs a rest h := by
    rw [pure_apply] at h
    cases h
    exact ⟨[], Language.nil_mem_one, rfl⟩
  whole := by
    intro a fs hfs
    rw [(Language.mem_one fs).1 hfs]
    exact Reads.pure ()
  fails bs e rest h := by
    rw [pure_apply] at h
    cases h
  stopped a k taken left h := absurd h FieldFormat.not_stopsIn_one

/-- A reader and what it goes on with: the fields of the one and then those of the
other. -/
theorem Scans.bind {m : ByteReader ε α} {f : α → ByteReader ε β} {L : α → Language φ}
    {K : α → β → Language φ} (hm : Scans F m L) (hf : ∀ a, Scans F (f a) (K a)) :
    Scans F (m >>= f) fun b => {fs | ∃ a, fs ∈ L a * K a b} where
  inhabited := by
    obtain ⟨a, fs, hfs⟩ := hm.inhabited
    obtain ⟨b, gs, hgs⟩ := (hf a).inhabited
    exact ⟨b, fs ++ gs, a, Language.append_mem_mul hfs hgs⟩
  reads bs b rest h := by
    obtain ⟨a, mid, ha, hb⟩ := bind_eq_ok.1 h
    obtain ⟨fs, hfs, rfl⟩ := hm.reads bs a mid ha
    obtain ⟨gs, hgs, rfl⟩ := (hf a).reads mid b rest hb
    refine ⟨fs ++ gs, ⟨a, Language.append_mem_mul hfs hgs⟩, ?_⟩
    rw [F.allBytes_append, List.append_assoc]
  whole := by
    rintro b _ ⟨a, hall⟩
    obtain ⟨fs, hfs, gs, hgs, rfl⟩ := Language.mem_mul.1 hall
    rw [F.allBytes_append]
    exact (hm.whole a fs hfs).bind ((hf a).whole b gs hgs)
  fails bs e rest h := by
    cases hbs : m bs with
    | error e' mid =>
        rw [bind_of_error hbs] at h
        cases h
        obtain ⟨a, taken, rfl, hstops⟩ := hm.fails bs e rest hbs
        obtain ⟨b, gs, hgs⟩ := (hf a).inhabited
        exact ⟨b, taken, rfl, (hstops.inLeft hgs).mono fun _ hall => ⟨a, hall⟩⟩
    | ok a mid =>
        rw [bind_of_ok hbs] at h
        obtain ⟨fs, hfs, rfl⟩ := hm.reads bs a mid hbs
        obtain ⟨b, taken, rfl, hstops⟩ := (hf a).fails mid e rest h
        refine ⟨b, F.allBytes fs ++ taken, (List.append_assoc ..).symm, ?_⟩
        exact (hstops.inRight hfs).mono fun _ hall => ⟨a, hall⟩
  stopped := by
    rintro b k taken left ⟨done, f', more, broken, ⟨a, hall⟩, htaken, hstops⟩
    have hin : F.StopsIn (L a * K a b) k taken left :=
      ⟨done, f', more, broken, hall, htaken, hstops⟩
    rcases hin.of_mul with hleft | ⟨fs, hfs, taken', rfl, hright⟩
    · obtain ⟨e, hkind, herror⟩ := hm.stopped a k taken left hleft
      exact ⟨e, hkind, bind_of_error herror⟩
    · obtain ⟨e, hkind, herror⟩ := (hf a).stopped b k taken' left hright
      refine ⟨e, hkind, ?_⟩
      rw [List.append_assoc, bind_of_ok (hm.whole a fs hfs _)]
      exact herror

theorem Scans.congr {m : ByteReader ε α} {L L' : α → Language φ} (h : Scans F m L)
    (hL : ∀ a, L a = L' a) : Scans F m L' :=
  funext hL ▸ h

/-- A reader whose answer makes no difference to what is read after it adds its own
fields. -/
theorem Scans.seq {m : ByteReader ε α} {f : α → ByteReader ε Unit} {L : α → Language φ}
    {M K : Language φ} (hm : Scans F m L) (hM : ∀ fs, fs ∈ M ↔ ∃ a, fs ∈ L a)
    (hf : ∀ a, Scans F (f a) fun _ => K) : Scans F (m >>= f) fun _ => M * K := by
  refine (hm.bind hf).congr fun _ => Set.ext fun fs => ?_
  constructor
  · rintro ⟨a, hall⟩
    obtain ⟨xs, hxs, ys, hys, rfl⟩ := Language.mem_mul.1 hall
    exact Language.append_mem_mul ((hM xs).2 ⟨a, hxs⟩) hys
  · intro hall
    obtain ⟨xs, hxs, ys, hys, rfl⟩ := Language.mem_mul.1 hall
    obtain ⟨a, ha⟩ := (hM xs).1 hxs
    exact ⟨a, Language.append_mem_mul ha hys⟩

/-- So does one that answers nothing. -/
theorem Scans.andThen {m : ByteReader ε Unit} {f : Unit → ByteReader ε Unit} {M K : Language φ}
    (hm : Scans F m fun _ => M) (hf : ∀ a, Scans F (f a) fun _ => K) :
    Scans F (m >>= f) fun _ => M * K := by
  refine hm.seq (fun fs => ?_) hf
  exact ⟨fun hfs => ⟨(), hfs⟩, fun ⟨_, hfs⟩ => hfs⟩

/-- A field, and what comes after it. -/
theorem ReadsField.seq {m : ByteReader ε α} {f : α → ByteReader ε Unit} {mk : ι → φ}
    {K : Language φ} (h : ReadsField F m mk) (hf : ∀ a, Scans F (f a) fun _ => K) :
    Scans F (m >>= f) fun _ => oneOf mk * K := by
  refine h.scans.seq (fun fs => ?_) hf
  constructor
  · rintro ⟨x, rfl⟩
    obtain ⟨a, hreads⟩ := h.whole x
    exact ⟨a, x, hreads, rfl⟩
  · rintro ⟨_, x, -, rfl⟩
    exact ⟨x, rfl⟩

/-- So many rounds. -/
theorem Scans.times {body : Unit → ByteReader ε Unit} {L : Language φ}
    (h : Scans F (body ()) fun _ => L) (n : Nat) :
    Scans F (forCount body n ()) fun _ => L ^ n := by
  induction n with
  | zero => exact Scans.done
  | succ n ih =>
      refine (h.andThen fun _ => ih).congr fun _ => ?_
      rw [pow_succ']

end Rules

end RedisHaTool.Lib
