import WorkloadKit.LttngSimple.State

namespace WorkloadKit.LttngSimple

-- What is found in the file system: the file that a path leads to, links being followed, the names of the
-- entries of a directory, and the directories that match a pattern with wildcards.
structure FileSystem where
  file     : String → Option ℕ
  scandir  : String → List String
  globDirs : String → List String
  entry    : ∀ dir, ∀ name ∈ scandir dir, '/' ∉ name.toList

-- os.path.exists
def FileSystem.exists (fs : FileSystem) (path : String) : Bool :=
  (fs.file path).isSome

def findEventFile (fs : FileSystem) : List (Option String) → String → Option String
  | [],                           _    => none
  | none :: searchpath,           name => findEventFile fs searchpath name
  | some directory :: searchpath, name =>
    let evfile := join directory name
    if fs.exists evfile then some evfile else findEventFile fs searchpath name

-- The file that `load_event_list` opens, if there is one.
def loadEventListFile (fs : FileSystem) (searchpath : List (Option String)) (name : String) : Option String :=
  if fs.exists name then some name else findEventFile fs searchpath (name ++ ".list")

-- The first part of os.path.split(directory + "/*.list")
def splitDir (directory : String) : String :=
  let head := directory.toList ++ ['/']
  .ofList <| if head.all (· = '/') then head else (head.reverse.dropWhile (· = '/')).reverse

-- glob.has_magic
def hasMagic (pathname : String) : Bool :=
  pathname.toList.any (['*', '?', '['].contains ·)

-- Whether the pattern "*.list" matches the name of an entry. It does not match a hidden one.
def isListEntry (name : String) : Bool :=
  name.toList.head? ≠ some '.' && ".list".toList.isSuffixOf name.toList

-- The directories whose entries are searched for a directory of the search path.
def FileSystem.dirs (fs : FileSystem) (directory : String) : List String :=
  let dirname := splitDir directory
  if hasMagic dirname then fs.globDirs dirname else [dirname]

-- glob.glob(directory + "/*.list")
def FileSystem.glob (fs : FileSystem) (directory : String) : List String :=
  (fs.dirs directory).flatMap fun dirname => ((fs.scandir dirname).filter isListEntry).map (join dirname)

-- Path(path).stem, where the last dot is neither the first nor the last character of the name.
def stem (path : String) : String :=
  let name := (basename path).toList
  let i := name.length - (name.reverse.takeWhile (· ≠ '.')).length - 1
  if 0 < i ∧ i < name.length - 1 then .ofList (name.take i) else .ofList name

-- An iteration of the loop. A value of the dictionary that has been stored for a key is overwritten by the
-- next one.
def addProfiles (fs : FileSystem) (profiles : String → Option String) : Option String → String → Option String
  | none           => profiles
  | some directory =>
    (fs.glob directory).foldl (fun profiles item => Function.update profiles (stem item) (some item)) profiles

def getProfiles (fs : FileSystem) (searchpath : List (Option String)) : String → Option String :=
  searchpath.foldl (addProfiles fs) fun _ => none

end WorkloadKit.LttngSimple
