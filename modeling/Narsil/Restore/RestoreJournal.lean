import Mathlib.Data.List.Dedup
import Narsil.Assoc.Entries
import Narsil.Crash.Program
import Narsil.Replication.Entry

/-!
# The storage of a restore

`RestoreStorage` in its two forms: a persistence adapter, which moves a key by
copying it, and a durable directory, which moves and removes whole trees. Each
single-key change and each rename is one atomic step; removing a tree is a step
for each of its files.
-/
namespace Narsil.Restore

open Assoc Crash

abbrev Key := List Char

instance lawfulBEq_key : LawfulBEq Key := inferInstance

abbrev Files := List (Key × Bytes)

def retiredStart : Key := ['.', 'r', 'e', 't', 'i', 'r', 'e', 'd', '-']

inductive RestoreError where
  /-- The manifest is gone, both from staging and from the index. -/
  | lostManifest (indexName stagingPrefix : Key)
  | unreadableManifest (indexName : Key)
  /-- The staged manifest has the layout of an earlier release. -/
  | earlierLayout (indexName : Key)
  | corruptJournal (key : Key) (reason : String)
  | moveFailed (source : Key)
  | missingKey (key : Key)

inductive DecodedManifest where
  /-- The keys of `manifestFileRefs`. -/
  | current (fileKeys : List Key)
  | earlier

/-- What the code takes from its host. -/
structure Host where
  /-- `TextEncoder` and `TextDecoder`. -/
  encodeText : List Char → Bytes
  decodeText : Bytes → List Char
  decode_ascii : ∀ text, (∀ c ∈ text, c.toNat < 128) → decodeText (encodeText text) = text
  sha256 : Bytes → Bytes
  /-- `decodeSegmentManifest` for an index; `none` where it throws. -/
  decodeSegmentManifest : Bytes → Key → Option DecodedManifest
  /-- Each file key is the one that the layout gives it, below the index. -/
  fileKeys_below : ∀ bytes indexName keys, decodeSegmentManifest bytes indexName = some (.current keys) →
    ∀ key ∈ keys, ∃ rest, key = indexName ++ '/' :: rest
  /-- The order in which keys are listed. -/
  arrange : List Key → List Key
  mem_arrange : ∀ keys key, key ∈ arrange keys ↔ key ∈ keys
  /-- `randomSuffix`, new to every key of the storage. -/
  randomSuffix : Files → List Char
  randomSuffix_chars : ∀ files, ∀ c ∈ randomSuffix files, c.isAlphanum = true ∨ c = '-'
  randomSuffix_fresh : ∀ files, ∀ e ∈ files,
    ¬ (retiredStart ++ randomSuffix files ++ ['/']) <+: e.1
  /-- What `atomicWrite` has in its temporary file when it crashes, and that
  file's random name. -/
  tempBytes : Bytes → Bytes
  tempSuffix : List Char
  tempSuffix_flat : '/' ∉ tempSuffix

abbrev Action := Program Files RestoreError

def read (key : Key) : Action (Option Bytes) := .reads fun files => lookup files key

def remove (key : Key) : Action Unit := .step fun files => erase files key

def keysBelow (files : Files) (start : Key) : List Key :=
  (files.map Prod.fst).filter fun key => start <+: key

def list (host : Host) (start : Key) : Action (List Key) :=
  .reads fun files => host.arrange (keysBelow files start)

structure RestoreStorage where
  writeJournal : Key → Bytes → Action Unit
  moveKey : Key → Key → Action Unit
  moveTree : Option (Key → Key → Action Unit)
  removeTree : Option (Key → Action Unit)

def adapterRestoreStorage : RestoreStorage where
  writeJournal key bytes := .step fun files => insert files key bytes
  moveKey source target := do
    match ← read source with
    | none => pure ()
    | some bytes =>
      Program.step fun files => insert files target bytes
      remove source
  moveTree := none
  removeTree := none

/-- A directory renamed; what lay elsewhere stays. -/
def renameTree (files : Files) (source target : Key) : Files :=
  files.map fun e =>
    if source ++ ['/'] <+: e.1 then (target ++ e.1.drop source.length, e.2) else e

def tempName (host : Host) (key : Key) : Key := key ++ ['.', 't', 'm', 'p', '-'] ++ host.tempSuffix

def directoryRestoreStorage (host : Host) : RestoreStorage where
  writeJournal key bytes := do
    Program.step fun files => insert files (tempName host key) (host.tempBytes bytes)
    Program.step fun files => insert (erase files (tempName host key)) key bytes
  moveKey source target := do
    match ← read source with
    | none => Program.throw (.missingKey source)
    | some bytes => Program.step fun files => insert (erase files source) target bytes
  moveTree := some fun source target => do
    let moved ← Program.reads fun files => keysBelow files (source ++ ['/'])
    let occupied ← Program.reads fun files => keysBelow files (target ++ ['/'])
    if moved = [] then pure ()
    else if occupied ≠ [] then Program.throw (.moveFailed source)
    else Program.step fun files => renameTree files source target
  removeTree := some fun start => do
    (← list host start).forM remove

/-!
## The restore journal

A restore stages its files below a dot prefix, commits by writing a journal and
finishes by putting the staged files in the place of the index. Recovery
finishes every journal it finds and clears the dot prefixes away.
-/

def journalPrefix : Key := ['.', 's', 'w', 'a', 'p', '-']

def stagingStart : Key := ['.', 'r', 'e', 's', 't', 'o', 'r', 'e', '-']

def lockFileKey : Key := ['.', 'n', 'a', 'r', 's', 'i', 'l', '.', 'l', 'o', 'c', 'k']

def manifestName : Key := ['m', 'a', 'n', 'i', 'f', 'e', 's', 't']

def metaName : Key := ['m', 'e', 't', 'a']

def maxIndexNameLength : Nat := 255

def isNameChar (c : Char) : Bool := c.isAlphanum || c = '.' || c = '_' || c = '-'

/-- `includes('..')` -/
def includesDots : List Char → Bool
  | a :: b :: rest => (a = '.' && b = '.') || includesDots (b :: rest)
  | _ => false

/-- `INDEX_NAME_PATTERN`, the longest length and no two dots. -/
def isIndexName (name : Key) : Bool :=
  name.length ≤ maxIndexNameLength && !includesDots name &&
    match name with
    | first :: rest => first.isAlphanum && rest.all isNameChar
    | [] => false

/-- `STAGING_PREFIX_PATTERN` and no two dots. -/
def isStagingPrefix (start : Key) : Bool :=
  !includesDots start &&
    match start with
    | dot :: first :: rest =>
      dot = '.' && first.isAlphanum && rest.getLast? = some '/' && rest.dropLast.all isNameChar
    | _ => false

variable (host : Host) (storage : RestoreStorage)

def digestOf (indexName : Key) : List Char :=
  (host.sha256 (host.encodeText indexName)).flatMap fun byte =>
    [Nat.digitChar (byte.toNat / 16), Nat.digitChar (byte.toNat % 16)]

def journalKey (indexName : Key) : Key := journalPrefix ++ digestOf host indexName

def newRetiredPrefix : Action Key :=
  .reads fun files => retiredStart ++ host.randomSuffix files ++ ['/']

def encodeJournal (indexName stagingPrefix : Key) : Bytes :=
  host.encodeText (indexName ++ '\n' :: stagingPrefix)

inductive JournalReading where
  | leftover
  | journal (indexName stagingPrefix : Key)

def readJournal (key : Key) (bytes : Bytes) : Except RestoreError JournalReading :=
  let text := host.decodeText bytes
  let indexName := text.takeWhile fun c => c ≠ '\n'
  let stagingPrefix := text.drop (indexName.length + 1)
  if key.drop journalPrefix.length ≠ digestOf host indexName then .ok .leftover
  else if !isIndexName indexName then
    .error (.corruptJournal key "names an index that no index name can match")
  else if !isStagingPrefix stagingPrefix || stagingPrefix = lockFileKey ++ ['/'] then
    .error (.corruptJournal key "names no staging prefix that a restore writes")
  else .ok (.journal indexName stagingPrefix)

/-- The keys below the index that the staged manifest lists. -/
def listedKeys (indexName stagingPrefix : Key) : Action (List Key) := do
  let staged ← read (stagingPrefix ++ manifestName)
  let held ← read (indexName ++ '/' :: manifestName)
  match staged.or held with
  | none => Program.throw (.lostManifest indexName stagingPrefix)
  | some bytes =>
    match host.decodeSegmentManifest bytes indexName with
    | none => Program.throw (.unreadableManifest indexName)
    | some .earlier => Program.throw (.earlierLayout indexName)
    | some (.current fileKeys) =>
      pure (metaName :: manifestName :: fileKeys.map fun key => key.drop (indexName.length + 1))

def withoutTrailingSlash (start : Key) : Key := start.dropLast

def moveListed (indexName stagingPrefix : Key) (listed staged : List Key) : Action Unit :=
  listed.forM fun key =>
    if stagingPrefix ++ key ∈ staged then
      storage.moveKey (stagingPrefix ++ key) (indexName ++ '/' :: key)
    else pure ()

/-- The staged files take the place of the index; `some` names the prefix that
its old files were moved to. -/
def moveStaged (indexName stagingPrefix : Key) (listed staged : List Key) :
    Action (Option Key) :=
  match storage.moveTree with
  | some moveTree =>
    if staged = [] then do
      moveListed storage indexName stagingPrefix listed staged
      pure none
    else do
      let retiredPrefix ← newRetiredPrefix host
      moveTree indexName (withoutTrailingSlash retiredPrefix)
      moveTree (withoutTrailingSlash stagingPrefix) indexName
      pure (some retiredPrefix)
  | none => do
    moveListed storage indexName stagingPrefix listed staged
    pure none

def removeUnlisted (indexName : Key) (listed : List Key) : Action Unit := do
  (← list host (indexName ++ ['/'])).forM fun key =>
    if key.drop (indexName.length + 1) ∈ listed then pure () else remove key

def finishJournal (indexName stagingPrefix : Key) : Action (Option Key) := do
  let listed ← listedKeys host indexName stagingPrefix
  let staged ← list host stagingPrefix
  let retiredPrefix ← moveStaged host storage indexName stagingPrefix listed staged
  removeUnlisted host indexName listed
  remove (journalKey host indexName)
  pure retiredPrefix

def removePrefix (start : Key) : Action Unit :=
  match storage.removeTree with
  | some removeTree => removeTree start
  | none => do (← list host start).forM remove

def commitJournal (indexName stagingPrefix : Key) : Action Unit :=
  storage.writeJournal (journalKey host indexName) (encodeJournal host indexName stagingPrefix)

/-- The commit, the move and the removal of the old files, as a restore runs them. -/
def restore (indexName stagingPrefix : Key) : Action Unit := do
  commitJournal host storage indexName stagingPrefix
  match ← finishJournal host storage indexName stagingPrefix with
  | none => pure ()
  | some retiredPrefix => removePrefix host storage retiredPrefix

def isTopLevelJournal (key : Key) : Bool := journalPrefix <+: key && '/' ∉ key

/-- The first part of a key, with its slash. -/
def topPrefix (key : Key) : Key := key.takeWhile (fun c => c ≠ '/') ++ ['/']

def removeStagingPrefixes : Action Unit := do
  let keys ← list host ['.']
  let prefixes := ((keys.filter fun key => '/' ∈ key).map topPrefix).filter fun p => isStagingPrefix p
  prefixes.dedup.forM (removePrefix host storage)

def recoverJournal (key : Key) : Action Unit :=
  if isTopLevelJournal key then do
    match ← read key with
    | none => pure ()
    | some bytes =>
      match readJournal host key bytes with
      | .error e => Program.throw e
      | .ok .leftover => remove key
      | .ok (.journal indexName stagingPrefix) => do
        let _ ← finishJournal host storage indexName stagingPrefix
        pure ()
  else pure ()

def recoverRestoreJournals : Action Unit := do
  (← list host journalPrefix).forM (recoverJournal host storage)
  removeStagingPrefixes host storage

end Narsil.Restore
