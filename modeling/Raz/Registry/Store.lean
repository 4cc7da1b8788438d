import Raz.Registry.Archive

/-!
# The package store

Translation of the store functions of `registry_transport` and of `registry_resolve_mode`: where an
entry of the store is, where the index comes from, how a selected package gets into the store, and
how the packages that its lock names get there. The cached copy of the index is only read here.
-/

namespace Raz.Registry

/-- The environment variables that are read. -/
inductive EnvKey where
  | packageStore
  | razHome
  | home
  | userProfile
  | registryUrl
  | registryMirrors
  | registryIndex
  | offline
  | requireSignatures
  deriving DecidableEq, Repr

/-- The values of the variables; empty where one is not set. -/
abbrev Env := EnvKey → List UInt8

/-! ## Where an entry is -/

def registryStoreRoot (env : Env) (capacity : Nat) : Option (List UInt8) :=
  if env .packageStore ≠ [] then some (env .packageStore)
  else if env .razHome ≠ [] then
    if (env .razHome).length + 6 > capacity then none else some (env .razHome ++ ascii "/store")
  else
    let home := if env .home ≠ [] then env .home else env .userProfile
    if home ≠ [] then
      if home.length + 12 > capacity then none else some (home ++ ascii "/.raz/store")
    else if capacity < 14 then none
    else some (ascii "./target/store")

def registryStorePath (env : Env) (checksum : List UInt8) (capacity : Nat) :
    Option (List UInt8) := do
  let root ← registryStoreRoot env 8192
  if root.length + 1 + checksum.length > capacity then none else return root ++ 47 :: checksum

/-! ## The index -/

def registryOffline (env : Env) : Bool := env .offline ≠ [] && env .offline ≠ ascii "0"

def registryDefaultBase : List UInt8 :=
  ascii "https://raw.githubusercontent.com/raz-language/packages/main"

def registryJoinUrl (base suffix : List UInt8) (capacity : Nat) : List UInt8 :=
  let url := (packageAppend capacity [] base).2
  if url.getLast? = some 47 then
    let suffix := if suffix.head? = some 47 then suffix.tail else suffix
    (packageAppend capacity url suffix).2
  else if suffix.head? ≠ some 47 then
    (packageAppend capacity (packageAppend capacity url (ascii "/")).2 suffix).2
  else (packageAppend capacity url suffix).2

/-- A text without the spaces around it. -/
def trimmed (text : List UInt8) : List UInt8 :=
  ((text.dropWhile asciiIsSpace).reverse.dropWhile asciiIsSpace).reverse

/-- The mirrors between semicolons. -/
def mirrorList (mirrors : List UInt8) : List (List UInt8) :=
  ((mirrors.splitOn 59).map trimmed).filter (· ≠ [])

/-- The directory of `registry_credentials_path`. -/
def registryCredentialsParent (env : Env) : Option (List UInt8) :=
  let home := if env .home ≠ [] then env .home else env .userProfile
  let parent :=
    if env .razHome ≠ [] then env .razHome
    else if home ≠ [] then home ++ ascii "/.raz"
    else ascii "./.raz"
  if parent.length > 8192 then none else some parent

def registryIndexCachePath (env : Env) : Option (List UInt8) := do
  let parent ← registryCredentialsParent env
  return (packageAppend 8192 (packageAppend 8192 parent (ascii "/registry")).2
    (ascii "/index.txt")).2

section
variable {σ : Type} (rt : Runtime σ) (env : Env)

def registryFetchBaseIndex (s : σ) (base : List UInt8) : Option (List UInt8) :=
  (rt.httpGet s (registryJoinUrl base (ascii "index.txt") 8192) 2097152).filter (· ≠ [])

/-- The index and the base it comes from. -/
def registryLoadIndex (s : σ) : Option (List UInt8 × List UInt8) :=
  let nonempty (text : Option (List UInt8)) : Option (List UInt8) := text.filter (· ≠ [])
  let configured := if env .registryUrl ≠ [] then env .registryUrl else registryDefaultBase
  if env .registryIndex ≠ [] then
    (nonempty (rt.read s (env .registryIndex) 2097152)).map fun text => (text, configured)
  else
    let cached := nonempty ((registryIndexCachePath env).bind fun path => rt.read s path 2097152)
    if registryOffline env then cached.map fun text => (text, [])
    else
      match registryFetchBaseIndex rt s configured with
      | some text => some (text, configured)
      | none =>
          let mirrors := (mirrorList (env .registryMirrors)).findSome? fun mirror =>
            (registryFetchBaseIndex rt s mirror).map fun text => (text, mirror)
          match mirrors with
          | some (text, mirror) => if mirror.length > 8192 then none else some (text, mirror)
          | none => cached.map fun text => (text, registryDefaultBase)

/-! ## Materialization -/

/-- The common part of `registry_store_materialize`, which fills the entry from a directory, and of
the two functions that fill it from an archive, which remove it again when it does not match. -/
def storeMaterialize (fill : List UInt8 → σ → Int × σ) (removes : Bool)
    (checksum : List UInt8) (capacity : Nat) (s : σ) : Int × σ :=
  match registryStorePath env checksum capacity with
  | none => (40, s)
  | some output =>
      if rt.pathExists s output && registryStoreVerify rt s output checksum then
        (output.length, s)
      else if registryOffline env then (if rt.pathExists s output then -63 else -64, s)
      else
        match fill output s with
        | (0, s) =>
            if registryStoreVerify rt s output checksum then (output.length, s)
            else (-62, if removes then rt.removePath s output else s)
        | (status, s) => (status, s)

/-- An archive that was read is extracted; -67 where it is empty. -/
def unpackArchive (archive : Option (List UInt8)) (output : List UInt8) (s : σ) : Int × σ :=
  match archive.filter (· ≠ []) with
  | none => (-67, s)
  | some archive =>
      let (unpack, s) := registryExtractArchive rt archive output s
      (-unpack, s)

def registryStoreMaterializeArchive (url checksum : List UInt8) (capacity : Nat) (s : σ) :
    Int × σ :=
  storeMaterialize rt env (fun output s => unpackArchive rt (rt.httpGet s url 33554432) output s)
    true checksum capacity s

def registryStoreMaterializeLocalArchive (source checksum : List UInt8) (capacity : Nat) (s : σ) :
    Int × σ :=
  storeMaterialize rt env (fun output s => unpackArchive rt (rt.read s source 67108864) output s)
    true checksum capacity s

def registryStoreMaterialize (source checksum : List UInt8) (capacity : Nat) (s : σ) : Int × σ :=
  storeMaterialize rt env
    (fun output s =>
      let (copied, s) := rt.copyTree s source output
      (if copied then 0 else -65, s))
    false checksum capacity s

/-! ## Resolution -/

def signingRequireSignatures : Bool :=
  match env .requireSignatures with
  | [] => false
  | c :: _ => c = 49 || c = 116 || c = 84 || c = 121 || c = 89

/-- `signing_verify_metadata` returns 1. -/
def signingVerifyMetadata (name : List UInt8) (line : IndexLine) : Bool :=
  if line.key = [] || line.signature = [] then !signingRequireSignatures env
  else if line.key.length ≠ 16 || line.signature.length ≠ 128 then false
  else rt.verifySignature name line.version line.checksum line.key line.signature

/-- What follows the selection of a line in `registry_resolve_mode`. -/
def materializeLine (base : List UInt8) (line : IndexLine) (capacity : Nat) (s : σ) : Int × σ :=
  let remote :=
    (ascii "http://").isPrefixOf line.path || (ascii "https://").isPrefixOf line.path
  let source := if !remote && base ≠ [] then registryJoinUrl base line.path 16384 else line.path
  if remote || base ≠ [] then
    registryStoreMaterializeArchive rt env source line.checksum capacity s
  else if registryEndsDpk source then
    registryStoreMaterializeLocalArchive rt env source line.checksum capacity s
  else registryStoreMaterialize rt env source line.checksum capacity s

/-- What `registry_resolve_mode` writes to its output buffers. -/
structure Resolved where
  version : List UInt8
  checksum : List UInt8
  path : List UInt8

/-- `registry_resolve_mode` up to the lock of the package; an error where it does not return 0. -/
def resolvePackage (name constraint : List UInt8)
    (versionCapacity pathCapacity checksumCapacity : Nat) (s : σ) : Except Int Resolved × σ :=
  match registryLoadIndex rt env s with
  | none => (.error 60, s)
  | some (text, base) =>
      match selectLine name constraint text with
      | none => (.error 61, s)
      | some line =>
          if line.version.length > versionCapacity || line.checksum.length > checksumCapacity then
            (.error 40, s)
          else if !signingVerifyMetadata rt env name line then (.error 68, s)
          else
            let entry := registryStorePath env line.checksum pathCapacity
            -- a path that does not fit leaves the buffer, and 40 is taken for its length
            let resolved := ⟨line.version, line.checksum, entry.getD (List.replicate 40 0)⟩
            if entry.any (fun cached =>
                rt.pathExists s cached && registryStoreVerify rt s cached line.checksum) then
              (.ok resolved, s)
            else
              let (stored, s) := materializeLine rt env base line pathCapacity s
              (if stored < 0 then .error (-stored) else .ok resolved, s)

/-! ## The lock of a package -/

/-- `copy_quoted_value`; empty where it returns -1. -/
def copyQuotedValue (text : List UInt8) (capacity : Nat) : List UInt8 :=
  let text := trimmed text
  if text.length < 2 || text.head? ≠ some 34 || text.getLast? ≠ some 34 then []
  else if text.length - 2 > capacity then []
  else (text.drop 1).take (text.length - 2)

/-- What is read of a package in a lock. -/
structure LockEntry where
  name : List UInt8
  version : List UInt8
  checksum : List UInt8
  registrySource : Bool

def LockEntry.empty : LockEntry := ⟨[], [], [], false⟩

/-- A line with an equals sign. -/
def lockLine (entry : LockEntry) (line : List UInt8) : LockEntry :=
  let key := line.takeWhile (· ≠ 61)
  match line.drop key.length with
  | [] => entry
  | _ :: value =>
      if trimmed key = ascii "name" then { entry with name := copyQuotedValue value 4096 }
      else if trimmed key = ascii "version" then
        { entry with version := copyQuotedValue value 256 }
      else if trimmed key = ascii "checksum" then
        { entry with checksum := copyQuotedValue value 128 }
      else if trimmed key = ascii "source" then
        { entry with registrySource := copyQuotedValue value 64 = ascii "registry" }
      else entry

/-- The buffers of the resolved checksum and path are read up to a zero. -/
def registryFetchLockedEntry (name version checksum : List UInt8) (s : σ) : Int × σ :=
  if name = [] || version = [] || checksum = [] then (55, s)
  else
    match (registryStorePath env checksum 8192).filter (fun path =>
        rt.pathExists s path && registryStoreVerify rt s path checksum) with
    | some path => rt.trackPackage s name version path checksum
    | none =>
        if registryOffline env then (64, s)
        else
          match resolvePackage rt env name version 256 8192 64 s with
          | (.error status, s) => (status, s)
          | (.ok resolved, s) =>
              if resolved.checksum.takeWhile (· ≠ 0) ≠ checksum then (62, s)
              else
                rt.trackPackage s name version (resolved.path.takeWhile (· ≠ 0)) checksum

/-- A package of the lock is fetched if it comes from the registry. -/
def fetchEntry (entry : LockEntry) (s : σ) : Int × σ :=
  if entry.registrySource then
    registryFetchLockedEntry rt env entry.name entry.version entry.checksum s
  else (0, s)

/-- The loop of `registry_fetch_lock_data` over the lines. -/
def fetchLockLoop (entry : LockEntry) : List (List UInt8) → σ → Int × σ
  | [], s => fetchEntry rt env entry s
  | line :: lines, s =>
      if line = ascii "[[package]]" then
        match fetchEntry rt env entry s with
        | (0, s) => fetchLockLoop .empty lines s
        | (status, s) => (status, s)
      else fetchLockLoop (lockLine entry line) lines s

def registryFetchLockData (text : List UInt8) (s : σ) : Int × σ :=
  fetchLockLoop rt env .empty (indexLines text) s

def registryFetchPackageLock (root : List UInt8) (s : σ) : Int × σ :=
  if root = [] then (0, s)
  else if root.length + 9 > 8192 then (40, s)
  else
    let root := if root.getLast? ≠ some 47 && root.getLast? ≠ some 92 then root ++ [47] else root
    match rt.read s (root ++ ascii "raz.lock") 2097152 with
    | none => (0, s)
    | some text => registryFetchLockData rt env text s

def registryResolveMode (name constraint : List UInt8)
    (versionCapacity pathCapacity checksumCapacity : Nat) (hydrateLock : Bool) (s : σ) : Int × σ :=
  match resolvePackage rt env name constraint versionCapacity pathCapacity checksumCapacity s with
  | (.error status, s) => (status, s)
  | (.ok resolved, s) =>
      if hydrateLock then registryFetchPackageLock rt env resolved.path s else (0, s)

end

end Raz.Registry
