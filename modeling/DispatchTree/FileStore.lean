import DispatchTree.PathName
/-! A store of files.
Files lie at places, which are lists of names from the root.  A place is a directory when a file
lies below it; the current directory and those above it are always there.  Writing replaces a file
as a whole and never makes a directory: the text goes into a fresh file beside it, which then takes
its name, so a path fails if either of the two steps does. -/
namespace DispatchTree

structure FileStore where
  /-- The place of the current directory. -/
  home : Place
  files : List (Place × ByteArray)

namespace FileStore

def content? (store : FileStore) (place : Place) : Option ByteArray := store.files.lookup place

/-- Some file or the current directory lies below the place, or it is the current directory. -/
def isDirectory (store : FileStore) (place : Place) : Bool :=
  place.isPrefixOf store.home ||
    store.files.any fun file => place.isPrefixOf file.1 && file.1 != place

def setContent (place : Place) (content : ByteArray) :
    List (Place × ByteArray) → List (Place × ByteArray)
  | [] => [(place, content)]
  | file :: rest =>
    if file.1 = place then (place, content) :: rest else file :: setContent place content rest

def put (store : FileStore) (place : Place) (content : ByteArray) : FileStore :=
  ⟨store.home, setContent place content store.files⟩

@[simp] theorem home_put (store : FileStore) (place : Place) (content : ByteArray) :
    (store.put place content).home = store.home := rfl

theorem lookup_setContent (place other : Place) (content : ByteArray)
    (files : List (Place × ByteArray)) :
    (setContent place content files).lookup other =
      if other = place then some content else files.lookup other := by
  induction files with
  | nil =>
    by_cases h : other = place
    · simp [setContent, h]
    · have unequal : (other == place) = false := by simp [h]
      simp [setContent, List.lookup_cons, unequal, h]
  | cons file rest ih =>
    obtain ⟨key, bytes⟩ := file
    by_cases h : other = key
    · by_cases hk : key = place <;> simp [setContent, h, hk]
    · have unequal : (other == key) = false := by simp [h]
      by_cases hk : key = place
      · have : other ≠ place := hk ▸ h
        have unequal : (other == place) = false := by simp [this]
        simp [setContent, List.lookup_cons, hk, this, unequal]
      · simp [setContent, List.lookup_cons, hk, unequal, ih]

theorem content?_put (store : FileStore) (place other : Place) (content : ByteArray) :
    (store.put place content).content? other =
      if other = place then some content else store.content? other :=
  lookup_setContent place other content store.files

@[simp] theorem content?_put_self (store : FileStore) (place : Place) (content : ByteArray) :
    (store.put place content).content? place = some content := by simp [content?_put]

theorem content?_put_of_ne (store : FileStore) {place other : Place} (h : other ≠ place)
    (content : ByteArray) : (store.put place content).content? other = store.content? other := by
  simp [content?_put, h]

/-- Walks from a directory through named directories; one dot stays, two dots go up, and the root is
above itself. -/
def descend (store : FileStore) (here : Place) : List String → Except FileFault Place
  | [] => .ok here
  | part :: rest =>
    if PathName.stays part then store.descend here rest
    else if part = ".." then store.descend here.dropLast rest
    else if PathName.isTooLong part then .error .nameTooLong
    else if store.isDirectory (here ++ [part]) then store.descend (here ++ [part]) rest
    else if (store.content? (here ++ [part])).isSome then .error .notDirectory
    else .error .notFound

inductive Target where
  /-- A directory that the path spells with dots or as the root. -/
  | directory
  /-- An entry of an existing directory, which may or may not be there itself. -/
  | entry (place : Place) (slashed : Bool)
  deriving DecidableEq

def locateName (store : FileStore) (path : PathName) : Except FileFault Target :=
  match store.descend (path.start store.home) path.parents with
  | .error fault => .error fault
  | .ok here =>
    if path.namesDirectory then .ok .directory
    else if PathName.isTooLong path.name then .error .nameTooLong
    else .ok (.entry (here ++ [path.name]) path.slashed)

def locate (store : FileStore) (path : String) : Except FileFault Target :=
  match PathName.refusal? path with
  | some fault => .error fault
  | none => store.locateName (PathName.ofText path)

def read (store : FileStore) (path : String) : Except FileFault ByteArray :=
  match store.locate path with
  | .error fault => .error fault
  | .ok .directory => .error .isDirectory
  | .ok (.entry place slashed) =>
    if store.isDirectory place then .error .isDirectory
    else match store.content? place with
      | none => .error .notFound
      | some content => if slashed then .error .notDirectory else .ok content

def readText (store : FileStore) (path : String) : Except FileFault String :=
  match store.read path with
  | .error fault => .error fault
  | .ok content =>
    match String.fromUTF8? content with
    | some text => .ok text
    | none => .error .notText

def replace (store : FileStore) (path text : String) : Except FileFault FileStore :=
  match store.locate path with
  | .error fault => .error fault
  | .ok .directory => .error .busy
  | .ok (.entry place slashed) =>
    if slashed then .error .notDirectory
    else if store.isDirectory place then .error .isDirectory
    else .ok (store.put place text.toByteArray)

/-- The name of the fresh file; nothing but its length matters. -/
def freshName : String := ".tmp000000"

/-- Replaces a file if a fresh one can be made beside it. -/
def writeText (store : FileStore) (path text : String) : Except FileFault FileStore :=
  match store.locate ((PathName.ofText path).besideText store.home freshName) with
  | .error fault => .error fault
  | .ok _ => store.replace path text

end FileStore
end DispatchTree
