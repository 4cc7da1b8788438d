import Raz.Registry.Model

/-!
# Package archives and package trees

Translation of the archive functions of `registry_transport`: which paths are packed, hashed and
extracted, the lines of an archive, and the three walks. The file system is a parameter: the
`raz_compiler_rt_*` functions that the walks call, on a state of their own.
-/

namespace Raz.Registry

def ascii (text : String) : List UInt8 := text.toList.map (fun c => UInt8.ofNat c.toNat)

/-! ## The runtime -/

/-- What `raz_rt_create_dir_one` returns: 1, 0 or -1. -/
inductive DirStatus
  | created
  | existed
  | failed
  deriving DecidableEq, Repr

/-- The runtime functions on files. A path is given by its bytes. -/
structure Runtime (σ : Type) where
  pathExists : σ → List UInt8 → Bool
  /-- The relative paths of the files below a directory, in order; none where it is negative. -/
  treeList : σ → List UInt8 → Nat → Option (List UInt8)
  /-- The contents of a file, up to a capacity; none where it is negative. -/
  read : σ → List UInt8 → Nat → Option (List UInt8)
  createDirOne : σ → List UInt8 → DirStatus × σ
  /-- True where all bytes are written. -/
  write : σ → List UInt8 → List UInt8 → Bool × σ
  removePath : σ → List UInt8 → σ
  /-- True where it returns 0. -/
  copyTree : σ → List UInt8 → List UInt8 → Bool × σ
  /-- `registry_http_get`; none where it is not positive. -/
  httpGet : σ → List UInt8 → Nat → Option (List UInt8)
  /-- The last part of `signing_verify_metadata`: a trusted key, and its signature. -/
  verifySignature : List UInt8 → List UInt8 → List UInt8 → List UInt8 → List UInt8 → Bool
  /-- `registry_cache_locked_package_for_tracking`, which writes what the project keeps about the
  name, the version, the path in the store and the checksum of a locked package. -/
  trackPackage : σ → List UInt8 → List UInt8 → List UInt8 → List UInt8 → Int × σ

/-! ## Directories -/

def hostSeparator (b : UInt8) : Bool := b = 47 || b = 92

/-- `compiler_host_root_length`: how much of a path is the root of a file system. -/
def hostRootLength : List UInt8 → Nat
  | [] => 0
  | first :: rest =>
      if hostSeparator first then (if rest.head?.any hostSeparator then 2 else 1)
      else
        match rest with
        | second :: third :: _ =>
            let drive := 65 ≤ first && first ≤ 90 || 97 ≤ first && first ≤ 122
            if drive && second = 58 && hostSeparator third then 3 else 0
        | _ => 0

/-- A path ends in front of a separator, or at its end. -/
def boundary (path : List UInt8) (index : Nat) : Bool :=
  index = path.length || path[index]?.any hostSeparator

/-- The lengths that the loop of `compiler_host_create_directories_bytes` looks at. -/
def directoryLengths (path : List UInt8) : List Nat :=
  List.range' (hostRootLength path + 1) (path.length - hostRootLength path)

section
variable {σ : Type} (rt : Runtime σ)

def createDirectoriesLoop (path : List UInt8) : List Nat → σ → Bool × σ
  | [], s => (true, s)
  | index :: rest, s =>
      if boundary path index then
        let (status, s) := rt.createDirOne s (path.take index)
        if status = .failed && !rt.pathExists s (path.take index) then (false, s)
        else createDirectoriesLoop path rest s
      else createDirectoriesLoop path rest s

/-- `raz_compiler_rt_create_dir_ascii`: every directory of the path that is missing is created; true
where it returns 0. -/
def Runtime.createDir (s : σ) (path : List UInt8) : Bool × σ :=
  if path = [] then (false, s) else createDirectoriesLoop rt path (directoryLengths path) s

end

/-! ## Paths -/

def registryEndsDpk (path : List UInt8) : Bool := (ascii ".dpk").isSuffixOf path

def registryPackagePathIgnored (path : List UInt8) : Bool :=
  (ascii ".git/").isPrefixOf path || (ascii ".raz/").isPrefixOf path ||
    (ascii ".raz-publish/").isPrefixOf path || (ascii "build/").isPrefixOf path ||
    (ascii "target/").isPrefixOf path || path = ascii "stage1-diagnostic.txt" ||
    path = ascii ".raz.cache" || path = ascii ".raz.registry" ||
    path = ascii ".raz.registry-index" || path = ascii ".raz.git" || registryEndsDpk path

/-- The end of a component in `registry_safe_archive_path`. -/
def safeComponent (component : List UInt8) : Bool := component ≠ ascii ".." && component ≠ []

/-- The loop of `registry_safe_archive_path`, with the component so far. -/
def safeLoop (component : List UInt8) : List UInt8 → Bool
  | [] => safeComponent component
  | b :: rest =>
      if b = 47 then safeComponent component && safeLoop [] rest
      else if b = 92 || b = 58 then false
      else safeLoop (component ++ [b]) rest

def registrySafeArchivePath (path : List UInt8) : Bool :=
  if path = [] then false
  else if path.head? = some 47 || path.head? = some 92 then false
  else safeLoop [] path

/-! ## Buffers -/

/-- `package_append`: nothing is written where it does not fit. -/
def packageAppend (capacity : Nat) (output data : List UInt8) : Bool × List UInt8 :=
  if output.length + data.length > capacity then (false, output) else (true, output ++ data)

/-- The path of a file below a root. -/
def packagePath (root path : List UInt8) : List UInt8 :=
  let full := (packageAppend 8192 [] root).2
  let full :=
    if full ≠ [] && full.getLast? ≠ some 47 && full.getLast? ≠ some 92 then
      (packageAppend 8192 full (ascii "/")).2
    else full
  (packageAppend 8192 full path).2

/-! ## Hexadecimal -/

def registryHexDigit (value : UInt8) : UInt8 := if value < 10 then 48 + value else 87 + value

def hexByte (b : UInt8) : List UInt8 := [registryHexDigit (b >>> 4), registryHexDigit (b &&& 15)]

def registryAppendHexBytes (capacity : Nat) (output data : List UInt8) : Bool × List UInt8 :=
  if output.length + data.length * 2 > capacity then (false, output)
  else (true, output ++ data.flatMap hexByte)

def registryHexValue (b : UInt8) : Option UInt8 :=
  if 48 ≤ b && b ≤ 57 then some (b - 48)
  else if 97 ≤ b && b ≤ 102 then some (b - 87)
  else if 65 ≤ b && b ≤ 70 then some (b - 55)
  else none

/-- The loop of `registry_decode_hex`. -/
def decodeHexLoop : List UInt8 → Option (List UInt8)
  | a :: b :: rest => do
      let a ← registryHexValue a
      let b ← registryHexValue b
      let bytes ← decodeHexLoop rest
      return (a * 16 + b) :: bytes
  | _ => some []

def registryDecodeHex (source : List UInt8) (capacity : Nat) : Option (List UInt8) :=
  if source.length % 2 ≠ 0 || source.length / 2 > capacity then none else decodeHexLoop source

/-! ## The hash of a tree -/

/-- The lines that are not empty. -/
def textLines (text : List UInt8) : List (List UInt8) := (text.splitOn 10).filter (· ≠ [])

def hashByte (hash : UInt64) (b : UInt8) : UInt64 := (hash ^^^ b.toUInt64) * 1099511628211

section
variable {σ : Type} (rt : Runtime σ)

/-- The loop of `registry_tree_hash` over the listing, with a step for each byte that is fed to the
hash; none where a file is not read. -/
def treeLoop {α : Type} (step : α → UInt8 → α) (s : σ) (root : List UInt8) (hash : α) :
    List (List UInt8) → Option α
  | [] => some hash
  | path :: paths =>
      if registryPackagePathIgnored path then treeLoop step s root hash paths
      else
        match rt.read s (packagePath root path) 33554432 with
        | none => none
        | some data =>
            let hash := step (path.foldl step hash) 0
            treeLoop step s root (step (data.foldl step hash) 255) paths

def treeFold {α : Type} (step : α → UInt8 → α) (start : α) (s : σ) (root : List UInt8) : Option α :=
  match rt.treeList s root 4194304 with
  | none => none
  | some listing => treeLoop rt step s root start (textLines listing)

/-- It is 0 where the tree is not read. -/
def registryTreeHash (s : σ) (root : List UInt8) : UInt64 :=
  (treeFold rt hashByte 1469598103934665603 s root).getD 0

/-- The bytes that `registry_tree_hash` feeds to the hash. -/
def registryTreeBytes (s : σ) (root : List UInt8) : Option (List UInt8) :=
  treeFold rt (fun bytes b => bytes ++ [b]) [] s root

def registryHex64Matches (checksum : List UInt8) (value : UInt64) : Bool :=
  checksum.length = 16 && checksum.zipIdx.all (fun (b, i) =>
    (registryHexValue b).map UInt8.toUInt64 = some ((value >>> (60 - 4 * i.toUInt64)) &&& 15))

def registryStoreVerify (s : σ) (path checksum : List UInt8) : Bool :=
  let hash := registryTreeHash rt s path
  hash ≠ 0 && registryHex64Matches checksum hash

/-! ## Packing -/

/-- The loop of `registry_pack_tree` over the listing. What follows the path is appended whether it
fits or not, but for the contents. -/
def packLoop (s : σ) (root : List UInt8) (capacity : Nat) (archive : List UInt8) :
    List (List UInt8) → Except Int (List UInt8)
  | [] => .ok archive
  | path :: paths =>
      if registryPackagePathIgnored path then packLoop s root capacity archive paths
      else
        match rt.read s (packagePath root path) 33554432 with
        | none => .error (-65)
        | some data =>
            let (tagged, archive) := packageAppend capacity archive (ascii "F ")
            if !tagged then .error (-40)
            else
              let (named, archive) := registryAppendHexBytes capacity archive path
              if !named then .error (-40)
              else
                let archive := (packageAppend capacity archive (ascii " ")).2
                let (filled, archive) := registryAppendHexBytes capacity archive data
                if !filled then .error (-40)
                else
                  packLoop s root capacity (packageAppend capacity archive (ascii "\n")).2 paths

def registryPackTree (s : σ) (root : List UInt8) (capacity : Nat) : Except Int (List UInt8) :=
  match rt.treeList s root 4194304 with
  | none => .error (-65)
  | some listing =>
      let (headed, archive) := packageAppend capacity [] (ascii "RAZPKG1\n")
      if !headed then .error (-40) else packLoop rt s root capacity archive (textLines listing)

/-! ## Extraction -/

/-- The path and the contents of a line of the archive. -/
def archiveRecord (line : List UInt8) : Option (List UInt8 × List UInt8) :=
  if line.length < 4 || line.take 2 ≠ ascii "F " then none
  else
    let hexPath := (line.drop 2).takeWhile (· ≠ 32)
    match (line.drop 2).drop hexPath.length with
    | [] => none
    | _ :: hexData => do
        let path ← registryDecodeHex hexPath 4096
        let data ← registryDecodeHex hexData ((hexData.length + 1) / 2 + 1)
        if path = [] || !registrySafeArchivePath path then none else return (path, data)

/-- The file of a record in `registry_extract_archive`. -/
def recordPath (destination path : List UInt8) : List UInt8 :=
  let full := (packageAppend 8192 [] destination).2
  let full := (packageAppend 8192 full (ascii "/")).2
  (packageAppend 8192 full path).2

/-- The part in front of the last slash; empty where there is none. -/
def parentPath (full : List UInt8) : List UInt8 :=
  (full.reverse.dropWhile (· ≠ 47)).tail.reverse

/-- A record in the loop of `registry_extract_archive`; 0 where the loop goes on. -/
def extractRecord (destination line : List UInt8) (s : σ) : Int × σ :=
  match archiveRecord line with
  | none => (66, s)
  | some (path, data) =>
      let full := recordPath destination path
      let parent := parentPath full
      let (created, s) := if parent = [] then (true, s) else rt.createDir s parent
      if !created then (65, s)
      else
        let (written, s) := rt.write s full data
        if written then (0, s) else (65, s)

def extractLoop (destination : List UInt8) : List (List UInt8) → σ → Int × σ
  | [], s => (0, s)
  | line :: lines, s =>
      match extractRecord rt destination line s with
      | (0, s) => extractLoop destination lines s
      | (code, s) => (code, s)

def registryExtractArchive (archive destination : List UInt8) (s : σ) : Int × σ :=
  if archive.take 8 ≠ ascii "RAZPKG1\n" then (66, s)
  else
    let s := rt.removePath s destination
    let (created, s) := rt.createDir s destination
    if !created then (65, s) else extractLoop rt destination (textLines (archive.drop 8)) s

end

end Raz.Registry
