import RedisHaTool.Store.Storer

/-!
# Scanning the directory

`from_path_sync` and `scan_from_dir` of `store/dataset.rs`: what the name of a
file says about what is in it, and the data set built from the names there are.
The time a file was created at is the file system's to know, so it is a
parameter: what `metadata.created()` answers, or the time of the call where it
does not. So is the order in which `read_dir` lists the entries.
-/

namespace RedisHaTool.Store

open Lib

def endsWith (t suffix : Text) : Bool := suffix.isSuffixOf t

/-- `str::trim_end_matches`, with so many matches at most. -/
def trimEndMatchesUpTo (suffix : Text) : Nat → Text → Text
  | 0, t => t
  | n + 1, t =>
      if endsWith t suffix then
        trimEndMatchesUpTo suffix n (t.take (t.length - suffix.length))
      else t

/-- `str::trim_end_matches`: there are no more matches than characters. -/
def trimEndMatches (t suffix : Text) : Text := trimEndMatchesUpTo suffix t.length t

def DataSetAof.fromPathSync (disk : Disk) (created : Path → Nat) (path : Path) :
    Except SyncError DataSetAof :=
  if !endsWith path.name ".aof".toList then
    .error (.corruptedText ("AOF 文件名格式错误: ".toList ++ path.name))
  else
    let nameWithoutExt := trimEndMatches path.name ".aof".toList
    match parseI64 nameWithoutExt with
    | none => .error (.corruptedText ("AOF offset 解析失败: ".toList ++ nameWithoutExt))
    | some offset =>
        if path ∈ disk then .ok { path, offset, createdAt := created path }
        else .error (.io .other)

def DataSetRdb.fromPathSync (disk : Disk) (created : Path → Nat) (path : Path) :
    Except SyncError DataSetRdb :=
  if !endsWith path.name ".rdb".toList then
    .error (.corruptedText ("RDB 文件名格式错误: ".toList ++ path.name))
  else
    match (trimEndMatches path.name ".rdb".toList).splitOn '_' with
    | [offsetText, sizeText] =>
        match parseI64 offsetText with
        | none => .error (.corruptedText ("RDB offset 解析失败: ".toList ++ offsetText))
        | some offset =>
            match parseI64 sizeText with
            | none => .error (.corruptedText ("RDB size 解析失败: ".toList ++ sizeText))
            | some size =>
                if path ∈ disk then .ok { path, offset, size, createdAt := created path }
                else .error (.io .other)
    | _ => .error (.corruptedText ("RDB 文件名格式错误: ".toList ++ path.name))

/-- What `read_dir` answers: the run id directories, and the files in each. -/
abbrev Listing := List (Text × List Path)

/-- The listing is of this disk. -/
def Listing.isOf (listing : Listing) (disk : Disk) : Bool :=
  (listing.all fun entry => entry.2.all fun path => path ∈ disk ∧ path.runId = entry.1) &&
    disk.keys.all fun path => listing.any fun entry => entry.1 = path.runId ∧ path ∈ entry.2

/-- The files of a directory that have the extension and whose names can be
read. -/
def scanFiles {α : Type} (ext : Text) (fromPath : Path → Except SyncError α)
    (files : List Path) : List α :=
  files.filterMap fun path =>
    if endsWith path.name ext then (fromPath path).toOption else none

def DataSet.scanFromDir (disk : Disk) (created : Path → Nat) (listing : Listing) : DataSet :=
  listing.foldl
    (fun dataset entry =>
      let rdbFiles := scanFiles ".rdb".toList (DataSetRdb.fromPathSync disk created) entry.2
      let aofSegments := scanFiles ".aof".toList (DataSetAof.fromPathSync disk created) entry.2
      { rdbFiles := dataset.rdbFiles.insert entry.1
          (rdbFiles.insertionSort fun a b => a.offset ≤ b.offset)
        aofSegments := dataset.aofSegments.insert entry.1
          (aofSegments.insertionSort fun a b => a.offset ≤ b.offset) })
    .new

/-! ## A name says what it was made from -/

theorem endsWith_append (t suffix : Text) : endsWith (t ++ suffix) suffix = true :=
  List.isSuffixOf_iff_suffix.2 (List.suffix_append t suffix)

/-- One match is taken off a text that does not end with another. -/
theorem trimEndMatches_append {t suffix : Text} (hsuffix : suffix ≠ [])
    (h : endsWith t suffix = false) : trimEndMatches (t ++ suffix) suffix = t := by
  have hstop : ∀ n, trimEndMatchesUpTo suffix n t = t := by
    intro n
    cases n with
    | zero => rfl
    | succ n => rw [trimEndMatchesUpTo, h]; rfl
  obtain ⟨n, hn⟩ : ∃ n, (t ++ suffix).length = n + 1 := by
    have := List.length_pos_of_ne_nil hsuffix
    exact ⟨t.length + suffix.length - 1, by rw [List.length_append]; omega⟩
  rw [trimEndMatches, hn, trimEndMatchesUpTo, endsWith_append, if_pos rfl,
    List.length_append, Nat.add_sub_cancel, List.take_left]
  exact hstop n

/-- A numeral ends with a digit, which is not how an extension ends. -/
theorem endsWith_intToString (i : Int) {suffix : Text} {c : Char}
    (hlast : suffix.getLast? = some c) (hc : c.isDigit = false) :
    endsWith (intToString i) suffix = false := by
  have hdigits : ∀ n : Nat, ∀ t : Text, suffix <:+ t ++ natToString n → False := by
    intro n t hsuffix
    have hsome : (t ++ natToString n).getLast? = some c := by
      obtain ⟨u, hu⟩ := hsuffix
      rw [← hu, List.getLast?_append, hlast]
      rfl
    rw [List.getLast?_append_of_ne_nil _ (natToString_ne_nil n)] at hsome
    have hdigit := isDigit_of_mem_natToString (List.mem_of_getLast? hsome)
    rw [hc] at hdigit
    cases hdigit
  rw [endsWith, Bool.eq_false_iff, Ne, List.isSuffixOf_iff_suffix]
  cases i with
  | ofNat n => exact hdigits n []
  | negSucc n => exact hdigits (n + 1) ['-']

/-- The name made from an offset is a segment's, and holds that offset. -/
theorem parse_aofFileName {offset : Int} (hoffset : IsI64 offset) :
    endsWith (aofFileName offset) ".aof".toList = true ∧
      parseI64 (trimEndMatches (aofFileName offset) ".aof".toList) = some offset := by
  have htrim : trimEndMatches (aofFileName offset) ".aof".toList = intToString offset :=
    trimEndMatches_append (by decide) (endsWith_intToString offset (c := 'f') rfl rfl)
  rw [htrim]
  exact ⟨endsWith_append _ _, parseI64_intToString hoffset⟩

theorem fromPathSync_aofFileName {disk : Disk} {runId : Text} {offset : Int}
    (hoffset : IsI64 offset) (hmem : ({ runId, name := aofFileName offset } : Path) ∈ disk)
    (created : Path → Nat) :
    DataSetAof.fromPathSync disk created { runId, name := aofFileName offset }
      = .ok { path := { runId, name := aofFileName offset }, offset,
              createdAt := created { runId, name := aofFileName offset } } := by
  obtain ⟨hends, hparse⟩ := parse_aofFileName hoffset
  simp only [DataSetAof.fromPathSync, hends, hparse, if_pos hmem]
  rfl

end RedisHaTool.Store
