import RehldsM.Util.Strings

/-
  `libs/util/src/util/file.cpp` over a finite file system. A `File` holds its bytes and which
  of the stream operations succeed on it, so that every branch of `file_read` can be taken.

  `file_exists` is `noexcept` around an `exists` that throws when the status of a path cannot be
  asked; the process ends there. A `Disk` has such paths, a `FileSystem` has none.

  The log messages of the `try_` functions are left out; those of `handle_write_error` are in
  `Core.ConsoleLog`.
-/

namespace RehldsM.Util

/-- 100 MB in bytes. -/
def maxFileSize : Nat := 100 * 1024 * 1024

/-- A file, and what the operations on a stream over it report. -/
structure File where
  content : Str
  opens : Bool := true
  sized : Bool := true
  reads : Bool := true
  closes : Bool := true

inductive FileReadErrorCode where
  | notExist
  | openError
  | sizeInvalid
  | sizeExceeded
  | readError
  | closeError
deriving DecidableEq

inductive FileWriteErrorCode where
  | openError
  | writeError
  | closeError
deriving DecidableEq

/-- What writing to a path runs into: the error, and how many of the bytes have arrived by
    then. -/
structure WriteFault where
  error : FileWriteErrorCode
  written : Nat := 0

/-- The files by path, and the fault that writing to a path runs into, if any. -/
structure FileSystem where
  files : List (Str × File)
  writeFault : Str → Option WriteFault := fun _ => none

def FileSystem.find (fs : FileSystem) (path : Str) : Option File := fs.files.lookup path

/-- The bytes at the path. -/
def FileSystem.content (fs : FileSystem) (path : Str) : Str :=
  ((fs.find path).map File.content).getD []

/-- A stream to write to the path can be opened. -/
def FileSystem.opens (fs : FileSystem) (path : Str) : Bool :=
  match fs.writeFault path with
  | some ⟨.openError, _⟩ => false
  | _ => true

/-- Where the status of the path can be asked. -/
def fileExists (fs : FileSystem) (path : Str) : Bool := !path.isEmpty && (fs.find path).isSome

/-- The stream operations of `file_read`, over the file it has found. -/
def File.read (file : File) : Except FileReadErrorCode Str :=
  if !file.opens then .error .openError
  else if !file.sized then .error .sizeInvalid
  else if file.content.length > maxFileSize then .error .sizeExceeded
  else if !file.reads then .error .readError
  else if !file.closes then .error .closeError
  else .ok file.content

/-- `file_read(path, content)`; `.ok` is `FileReadErrorCode::success`. -/
def fileRead (fs : FileSystem) (path : Str) : Except FileReadErrorCode Str :=
  if !fileExists fs path then .error .notExist
  else
    match fs.find path with
    | none => .error .openError
    | some file => file.read

/-- `try_file_read`: whether the read succeeded, with the content. -/
def tryFileRead (fs : FileSystem) (path : Str) : Option Str :=
  match fileRead fs path with
  | .ok content => some content
  | .error _ => none

/-- The path now holds `content`. A file that was there keeps what its streams report. -/
def FileSystem.put (fs : FileSystem) (path content : Str) : FileSystem :=
  let file := (fs.find path).getD { content }
  { fs with files := (path, { file with content }) :: fs.files.filter fun f => f.1 ≠ path }

/-- What `file_write` and `file_write_lines` share: the bytes go behind the old content
    (`append`) or in its place. A file that cannot be opened is left as it is. -/
def FileSystem.write (fs : FileSystem) (path content : Str) (append : Bool) :
    Option FileWriteErrorCode × FileSystem :=
  let old := if append then fs.content path else []
  match fs.writeFault path with
  | none => (none, fs.put path (old ++ content))
  | some ⟨.openError, _⟩ => (some .openError, fs)
  | some ⟨error, written⟩ => (some error, fs.put path (old ++ content.take written))

/-- `file_write`; `none` is `FileWriteErrorCode::success`. -/
def fileWrite (fs : FileSystem) (path content : Str) (append : Bool) :
    Option FileWriteErrorCode × FileSystem :=
  fs.write path content append

/-- `file_write_lines`: the `ostream_iterator` puts a `"\n"` behind each line. -/
def fileWriteLines (fs : FileSystem) (path : Str) (lines : List Str) (append : Bool) :
    Option FileWriteErrorCode × FileSystem :=
  fs.write path (lines.flatMap fun line => line ++ ['\n']) append

/-- `try_file_write_lines`, with the file system it leaves behind. -/
def tryFileWriteLines (fs : FileSystem) (path : Str) (lines : List Str) (append : Bool) :
    Bool × FileSystem :=
  let (error, fs) := fileWriteLines fs path lines append
  (error.isNone, fs)

/-- `try_file_remove`. -/
def tryFileRemove (fs : FileSystem) (path : Str) : FileSystem :=
  { fs with files := fs.files.filter fun f => f.1 ≠ path }

/-! ## Paths whose status cannot be asked -/

/-- A file system with the paths for which `std::filesystem::exists` throws: a name that is too
    long, a loop of links, a directory that may not be searched. -/
structure Disk extends FileSystem where
  statusError : Str → Bool
  /-- Such a path leads to no file. -/
  no_file : ∀ path, statusError path = true → toFileSystem.find path = none

/-- The status of every path can be asked. -/
def FileSystem.toDisk (fs : FileSystem) : Disk :=
  { fs with statusError := fun _ => false, no_file := fun _ h => nomatch h }

instance : Coe FileSystem Disk := ⟨FileSystem.toDisk⟩

/-- Why a call does not come back: an exception has left a `noexcept` function, which ends the
    process in `std::terminate`, or the calls nest deeper than asked for. -/
inductive NoReturn where
  | terminate
  | deeper
deriving DecidableEq

/-- `file_exists(path)` -/
def Disk.fileExists (disk : Disk) (path : Str) : Except NoReturn Bool :=
  if !path.isEmpty && disk.statusError path then .error .terminate
  else .ok (Util.fileExists disk.toFileSystem path)

/-- `file_read(path, content)` asks `file_exists` first. -/
def Disk.fileRead (disk : Disk) (path : Str) :
    Except NoReturn (Except FileReadErrorCode Str) :=
  (disk.fileExists path).map fun _ => Util.fileRead disk.toFileSystem path

@[simp] theorem FileSystem.statusError_toDisk (fs : FileSystem) (path : Str) :
    fs.toDisk.statusError path = false := rfl

theorem Disk.fileRead_eq (disk : Disk) {path : Str} (hpath : path ≠ []) :
    disk.fileRead path =
      if disk.statusError path = true then .error .terminate
      else .ok (Util.fileRead disk.toFileSystem path) := by
  unfold Disk.fileRead Disk.fileExists
  rw [List.isEmpty_eq_false_iff.mpr hpath]
  cases disk.statusError path <;> rfl

@[simp] theorem FileSystem.fileRead_toDisk (fs : FileSystem) (path : Str) :
    fs.toDisk.fileRead path = .ok (fileRead fs path) := by
  unfold Disk.fileRead Disk.fileExists
  rw [fs.statusError_toDisk, Bool.and_false]
  rfl

/-! ## What is read -/

/-- The stream operations of `file_read` succeed on the file. -/
structure File.Readable (file : File) : Prop where
  opens : file.opens = true
  sized : file.sized = true
  fits : file.content.length ≤ maxFileSize
  reads : file.reads = true
  closes : file.closes = true

theorem read_ok {file : File} {content : Str} (h : file.read = .ok content) :
    file.content = content := by
  unfold File.read at h
  split_ifs at h
  exact Except.ok.inj h

theorem read_eq_ok_iff {file : File} : file.read = .ok file.content ↔ file.Readable := by
  unfold File.read
  constructor
  · intro h
    split_ifs at h with hopens hsized hfits hreads hcloses
    exact ⟨by simpa using hopens, by simpa using hsized, Nat.not_lt.mp hfits, by simpa using hreads,
      by simpa using hcloses⟩
  · intro h
    have hfits : ¬ maxFileSize < file.content.length := Nat.not_lt.mpr h.fits
    simp [h.opens, h.sized, hfits, h.reads, h.closes]

/-- A file is read exactly when it is there, under a name, and its streams succeed. -/
theorem fileRead_ok_iff {fs : FileSystem} {path content : Str} :
    fileRead fs path = .ok content ↔
      path ≠ [] ∧ ∃ file, fs.find path = some file ∧ file.read = .ok content := by
  unfold fileRead fileExists
  cases path with
  | nil => simp
  | cons c path => cases fs.find (c :: path) <;> simp

theorem tryFileRead_eq_some_iff {fs : FileSystem} {path content : Str} :
    tryFileRead fs path = some content ↔ fileRead fs path = .ok content := by
  unfold tryFileRead
  cases fileRead fs path <;> simp

theorem find_of_tryFileRead {fs : FileSystem} {path content : Str}
    (h : tryFileRead fs path = some content) :
    ∃ file, fs.find path = some file ∧ file.content = content := by
  obtain ⟨-, file, hfind, hread⟩ := fileRead_ok_iff.mp (tryFileRead_eq_some_iff.mp h)
  exact ⟨file, hfind, read_ok hread⟩

/-- What is read is the content of one of the files. -/
theorem exists_file_of_fileRead {fs : FileSystem} {path content : Str}
    (h : fileRead fs path = .ok content) :
    ∃ file, (path, file) ∈ fs.files ∧ file.content = content := by
  obtain ⟨-, file, hfind, hread⟩ := fileRead_ok_iff.mp h
  obtain ⟨l₁, l₂, hfiles, -⟩ := List.lookup_eq_some_iff.mp hfind
  exact ⟨file, by simp [hfiles], read_ok hread⟩

theorem fileExists_of_tryFileRead {fs : FileSystem} {path content : Str}
    (h : tryFileRead fs path = some content) : fileExists fs path = true := by
  obtain ⟨hpath, file, hfind, -⟩ := fileRead_ok_iff.mp (tryFileRead_eq_some_iff.mp h)
  simp [fileExists, hpath, hfind]

/-! ## What is written -/

/-- The file behind a write. -/
theorem find_put (fs : FileSystem) (path content : Str) :
    (fs.put path content).find path =
      some { (fs.find path).getD { content } with content } := by
  simp [FileSystem.put, FileSystem.find]

theorem find_put_of_ne (fs : FileSystem) {path path' : Str} (content : Str) (h : path' ≠ path) :
    (fs.put path content).find path' = fs.find path' := by
  have hfilter : ∀ files : List (Str × File),
      (files.filter fun f => f.1 ≠ path).lookup path' = files.lookup path' := by
    intro files
    induction files with
    | nil => rfl
    | cons f files ih =>
      obtain ⟨p, file⟩ := f
      by_cases hp : p = path
      · subst hp
        rw [List.filter_cons_of_neg (by simp), ih, List.lookup_cons, beq_eq_false_iff_ne.mpr h]
      · rw [List.filter_cons_of_pos (by simpa using hp), List.lookup_cons, List.lookup_cons, ih]
  unfold FileSystem.put FileSystem.find
  dsimp only
  rw [List.lookup_cons, beq_eq_false_iff_ne.mpr h]
  exact hfilter fs.files

@[simp] theorem writeFault_put (fs : FileSystem) (path content : Str) :
    (fs.put path content).writeFault = fs.writeFault := rfl

@[simp] theorem content_put (fs : FileSystem) (path content : Str) :
    (fs.put path content).content path = content := by
  simp [FileSystem.content, find_put]

theorem content_put_of_ne (fs : FileSystem) {path path' : Str} (content : Str)
    (h : path' ≠ path) : (fs.put path content).content path' = fs.content path' := by
  rw [FileSystem.content, find_put_of_ne fs content h]
  rfl

@[simp] theorem writeFault_write (fs : FileSystem) (path content : Str) (append : Bool) :
    (fs.write path content append).2.writeFault = fs.writeFault := by
  unfold FileSystem.write
  dsimp only
  split <;> rfl

theorem content_write_of_ne (fs : FileSystem) {path path' : Str} (content : Str) (append : Bool)
    (h : path' ≠ path) : (fs.write path content append).2.content path' = fs.content path' := by
  unfold FileSystem.write
  dsimp only
  split
  · exact content_put_of_ne fs _ h
  · rfl
  · exact content_put_of_ne fs _ h

/-- What a write in the place of the old content leaves of the file depends on the file alone. -/
theorem content_write_congr {fs fs' : FileSystem} {path : Str}
    (hfault : fs'.writeFault = fs.writeFault) (hcontent : fs'.content path = fs.content path)
    (content : Str) :
    (fs'.write path content false).2.content path =
      (fs.write path content false).2.content path := by
  unfold FileSystem.write
  rw [hfault]
  cases fs.writeFault path with
  | none => simp
  | some fault =>
    obtain ⟨error, written⟩ := fault
    cases error with
    | openError => exact hcontent
    | writeError => simp
    | closeError => simp

/-- A write succeeds exactly when the path runs into no fault; then the bytes are there. -/
theorem write_eq_none_iff {fs : FileSystem} {path content : Str} {append : Bool} :
    (fs.write path content append).1 = none ↔ fs.writeFault path = none := by
  unfold FileSystem.write
  dsimp only
  split <;> simp_all

theorem write_of_no_fault {fs : FileSystem} {path : Str} (h : fs.writeFault path = none)
    (content : Str) (append : Bool) :
    fs.write path content append =
      (none, fs.put path ((if append then fs.content path else []) ++ content)) := by
  unfold FileSystem.write
  rw [h]

end RehldsM.Util
