import MyLog.Lib.FileTree
import MyLog.Text

/-! `File` of `util.hpp`: `isExist`, `getPath` and `createDirectory`. Of the two separators
the code looks for, the file system knows only `/`. -/

namespace MyLog

def slash : UInt8 := ascii '/'
def backslash : UInt8 := ascii '\\'

def isSeparator (b : UInt8) : Bool := b = slash ∨ b = backslash

/-- One component of a path. Empty components and `.` are ignored, also at the end. -/
def enter (loc : List Bytes) (name : Bytes) : List Bytes :=
  if name = [] ∨ name = utf8 "." then loc
  else if name = utf8 ".." then loc.dropLast
  else loc ++ [name]

def walk (cwd : List Bytes) (path : Bytes) : List Bytes :=
  (path.splitOn slash).foldl enter (if path.head? = some slash then [] else cwd)

/-- What a file name stands for. The system calls and the streams take its `c_str()`. -/
def place (cwd : List Bytes) (pathname : Bytes) : List Bytes := walk cwd (cString pathname)

/-- A tree of files with the directory that relative paths start from. -/
structure FileSystem extends FileTree Bytes where
  cwd : List Bytes
  cwd_directory : entry cwd = some .directory

namespace FileSystem

def locate (fs : FileSystem) (pathname : Bytes) : List Bytes := place fs.cwd pathname

def isExist (fs : FileSystem) (pathname : Bytes) : Bool :=
  cString pathname ≠ [] && (fs.entry (fs.locate pathname)).isSome

/-- `mkdir`, whose result the code ignores. -/
def mkdir (fs : FileSystem) (pathname : Bytes) : FileSystem :=
  { toFileTree := fs.toFileTree.mkdir (fs.locate pathname)
    cwd := fs.cwd
    cwd_directory := by
      have hcwd := fs.cwd_directory
      rwa [(FileTree.mkdir_grown (S := fun _ => True) trivial).keeps _ (by rw [hcwd]; simp)] }

end FileSystem

/-- `find_first_of("/\\", index)` -/
def findFirstOf (s : Bytes) (index : Nat) : Option Nat :=
  ((s.drop index).findIdx? isSeparator).map (index + ·)

/-- `find_last_of("/\\")` -/
def findLastOf (s : Bytes) : Option Nat :=
  (s.reverse.findIdx? isSeparator).map (s.length - 1 - ·)

def getPath (pathname : Bytes) : Bytes :=
  match findLastOf pathname with
  | none => utf8 "."
  | some pos => pathname.take (pos + 1)

theorem findFirstOf_le {s : Bytes} {index pos : Nat} (h : findFirstOf s index = some pos) :
    index ≤ pos := by
  obtain ⟨k, -, rfl⟩ := Option.map_eq_some_iff.mp h
  omega

def createDirectoryFrom (fs : FileSystem) (pathname : Bytes) (index : Nat) : FileSystem :=
  if _h : index < pathname.length then
    match _hp : findFirstOf pathname index with
    | none => if fs.isExist pathname then fs else fs.mkdir pathname
    | some pos =>
      let parentDir := pathname.take (pos + 1)
      if fs.isExist parentDir then createDirectoryFrom fs pathname (pos + 1)
      else createDirectoryFrom (fs.mkdir parentDir) pathname (pos + 1)
  else fs
termination_by pathname.length - index
decreasing_by
  all_goals
    have := findFirstOf_le _hp
    omega

def createDirectory (fs : FileSystem) (pathname : Bytes) : FileSystem :=
  createDirectoryFrom fs pathname 0

end MyLog
