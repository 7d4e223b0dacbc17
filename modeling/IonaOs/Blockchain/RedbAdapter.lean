import IonaOs.Fs.Ionafs
import IonaOs.Lib.Window

/-!
# The database file of the Redb adapter
-/

namespace IonaOs.Blockchain

open Std Lib Fs

def pageSize : ℕ := 4096

def superblockSize : ℕ := 16

structure RedbAdapterConfig where
  cacheSize : ℕ := 64
  flushIntervalMs : ℕ := 1000
  maxDirtyPages : ℕ := 1024

def RedbAdapterConfig.validate (cfg : RedbAdapterConfig) : Except String Unit :=
  if cfg.cacheSize = 0 then .error "cache_size must be > 0"
  else if cfg.flushIntervalMs = 0 then .error "flush_interval_ms must be > 0"
  else if cfg.maxDirtyPages = 0 then .error "max_dirty_pages must be > 0"
  else .ok ()

inductive RedbAdapterError where
  | closed
  | alreadyExists
  | internal (reason : String)

/-! ## The cache -/

structure PageCache where
  pages : ExtTreeMap ℕ (List UInt8) compare
  order : List ℕ
  capacity : ℕ

namespace PageCache

/-- From `2^60` on `Vec::with_capacity` panics, which is not modelled. -/
def new (capacity : ℕ) : PageCache := ⟨∅, [], capacity⟩

def get (c : PageCache) (page : ℕ) : Option (List UInt8) := c.pages[page]?

def insert (c : PageCache) (page : ℕ) (data : List UInt8) : Option ℕ × PageCache :=
  let (evicted, c) :=
    if c.pages.contains page then
      (none, { c with order := c.order.filter (· != page) })
    else if c.capacity ≤ c.pages.size then
      match c.order with
      | [] => (none, c)
      | lru :: order => (some lru, { c with order := order, pages := c.pages.erase lru })
    else (none, c)
  (evicted, { c with pages := c.pages.insert page data, order := c.order ++ [page] })

end PageCache

/-! ## The handle -/

def superPath (dbName : String) : String := "/db/" ++ dbName ++ "/super"

def pagePath (dbName : String) (page : ℕ) : String := "/db/" ++ dbName ++ "/p" ++ toString page

structure IonafsDatabaseFile where
  dbName : String
  numPages : ℕ
  cache : PageCache
  dirty : ExtTreeMap ℕ (List UInt8) compare
  config : RedbAdapterConfig
  closed : Bool

def storedPages (fs : Files) (dbName : String) : ℕ :=
  ((fs (superPath dbName)).bind fun data =>
    if superblockSize ≤ data.length then some (leNat (slice data 0 8)) else none).getD 0

namespace IonafsDatabaseFile

/-- `IonafsDatabaseFile::open`. -/
def openFile (fs : Files) (dbName : String) (cfg : RedbAdapterConfig) :
    Except RedbAdapterError IonafsDatabaseFile :=
  match cfg.validate with
  | .error e => .error (.internal e)
  | .ok () => .ok ⟨dbName, storedPages fs dbName, .new cfg.cacheSize, ∅, cfg, false⟩

def len (db : IonafsDatabaseFile) : ℕ := db.numPages * pageSize % 2 ^ 64

end IonafsDatabaseFile

structure Redb where
  fs : Files
  db : IonafsDatabaseFile

namespace Redb

variable (r : Redb)

def cachePage (page : ℕ) (data : List UInt8) : Redb :=
  { r with db := { r.db with cache := (r.db.cache.insert page data).2 } }

def readPage (page : ℕ) : List UInt8 × Redb :=
  match r.db.dirty[page]? with
  | some data => (data, r)
  | none =>
    match r.db.cache.get page with
    | some data => (data, r)
    | none =>
      let data := (r.fs (pagePath r.db.dbName page)).getD (List.replicate pageSize 0)
      (data, r.cachePage page data)

def writeSuperblock : Redb :=
  let sb := leBytes 8 r.db.numPages ++ leBytes 8 pageSize
  { r with fs := r.fs.write (superPath r.db.dbName) sb }

/-- A turn of the loop of `flush`. -/
def flushPage (r : Redb) (entry : ℕ × List UInt8) : Redb :=
  ⟨r.fs.write (pagePath r.db.dbName entry.1) entry.2,
    { r.db with dirty := r.db.dirty.erase entry.1 }⟩

def flush : Except RedbAdapterError Unit × Redb :=
  if r.db.closed then (.error .closed, r)
  else
    let dirtyPages := r.db.dirty.toList
    if dirtyPages.isEmpty then (.ok (), r)
    else (.ok (), (exec flushPage r dirtyPages).writeSuperblock)

def syncAll : Except RedbAdapterError Unit × Redb := r.flush

def close : Except RedbAdapterError Unit × Redb :=
  if r.db.closed then (.ok (), r)
  else
    match r.flush with
    | (.error e, r) => (.error e, r)
    | (.ok (), r) => (.ok (), { r with db := { r.db with closed := true } })

def drop : Files := if r.db.closed then r.fs else r.close.2.fs

/-- A turn of the loop of `grow_to`. -/
def growPage (r : Redb) (page : ℕ) : Redb :=
  { r with fs := r.fs.write (pagePath r.db.dbName page) (List.replicate pageSize 0) }

def growTo (newSize : ℕ) : Except RedbAdapterError Unit × Redb :=
  if r.db.closed then (.error .closed, r)
  else
    let newPages := (newSize + pageSize - 1) % 2 ^ 64 / pageSize
    let currentPages := r.db.numPages
    if newPages ≤ currentPages then (.ok (), r)
    else
      let r := exec growPage r (List.range' currentPages (newPages - currentPages))
      (.ok (), { r with db := { r.db with numPages := newPages } }.writeSuperblock)

/-- The loop of `read_at`.  A page shorter than `pageSize` can make a slice panic. -/
def readLoop (len : ℕ) : ℕ → Redb → ℕ → List UInt8 → Option (List UInt8 × Redb)
  | 0, _, _, _ => none
  | fuel + 1, r, pos, result =>
    if result.length < len then
      let page := pos / pageSize
      let offIn := pos % pageSize
      let canRead := min (pageSize - offIn) (len - result.length)
      let (pageData, r) := r.readPage page
      let stop := min (offIn + canRead) pageData.length
      if offIn ≤ stop then
        readLoop len fuel r (pos + canRead) (result ++ slice pageData offIn (stop - offIn))
      else none
    else some (result, r)

def readAt (offset len : ℕ) : Option (Except RedbAdapterError (List UInt8) × Redb) :=
  if r.db.closed then some (.error .closed, r)
  else if r.db.len ≤ offset then some (.ok (List.replicate len 0), r)
  else (readLoop len (len + 1) r offset []).map fun (result, r) => (.ok result, r)

/-- `pageData` with `data` copied over it from `offIn` on, first filled up to a page. -/
def overwritePage (pageData : List UInt8) (offIn : ℕ) (data : List UInt8) : List UInt8 :=
  let pageData := pageData ++ List.replicate (pageSize - pageData.length) 0
  pageData.take offIn ++ data ++ pageData.drop (offIn + data.length)

def markDirty (page : ℕ) (data : List UInt8) : Redb :=
  { r with db := { r.db with dirty := r.db.dirty.insert page data } }

/-- The loop of `write_at`; once there are too many dirty pages they are flushed. -/
def writeLoop (data : List UInt8) :
    ℕ → Redb → ℕ → ℕ → Option (Except RedbAdapterError Unit × Redb)
  | 0, _, _, _ => none
  | fuel + 1, r, pos, src =>
    if src < data.length then
      let page := pos / pageSize
      let offIn := pos % pageSize
      let canWrite := min (pageSize - offIn) (data.length - src)
      let (pageData, r) := r.readPage page
      let pageData := overwritePage pageData offIn (slice data src canWrite)
      let r := (r.cachePage page pageData).markDirty page pageData
      let (res, r) := if r.db.config.maxDirtyPages ≤ r.db.dirty.size then r.flush else (.ok (), r)
      match res with
      | .error e => some (.error e, r)
      | .ok () => writeLoop data fuel r (pos + canWrite) (src + canWrite)
    else some (.ok (), r)

def writeAt (offset : ℕ) (data : List UInt8) : Option (Except RedbAdapterError Unit × Redb) :=
  if r.db.closed then some (.error .closed, r)
  else
    let endOffset := (offset + data.length) % 2 ^ 64
    let (res, r) := if r.db.len < endOffset then r.growTo endOffset else (.ok (), r)
    match res with
    | .error e => some (.error e, r)
    | .ok () => writeLoop data (data.length + 1) r offset 0

end Redb

/-- `IonafsDatabaseFile::create`. -/
def IonafsDatabaseFile.create (fs : Files) (dbName : String) (cfg : RedbAdapterConfig) :
    Except RedbAdapterError IonafsDatabaseFile × Files :=
  if (fs (superPath dbName)).isSome then (.error .alreadyExists, fs)
  else
    match openFile fs dbName cfg with
    | .error e => (.error e, fs)
    | .ok db =>
      match (Redb.mk fs db).growTo (2 * pageSize) with
      | (.error e, r) => (.error e, r.drop)
      | (.ok (), r) => (.ok r.db, r.fs)

/-! ## Runs -/

/-- The calls for one database.  `openFile` and `create` first drop the handle there is. -/
inductive RedbCall where
  | openFile (cfg : RedbAdapterConfig)
  | create (cfg : RedbAdapterConfig)
  | readAt (offset len : ℕ)
  | writeAt (offset : ℕ) (data : List UInt8)
  | flush
  | syncAll
  | growTo (newSize : ℕ)
  | close

def RedbCall.reach : RedbCall → ℕ
  | readAt offset len => offset + len
  | writeAt offset data => offset + data.length
  | _ => 0

/-- The files and the handle, if there is one; `written` is not part of the program and has the
writes that returned `Ok`, the last one at the end. -/
structure Session where
  fs : Files
  handle : Option IonafsDatabaseFile
  written : List (ℕ × List UInt8)

namespace Session

def start (fs : Files) : Session := ⟨fs, none, []⟩

def dropped (s : Session) : Files :=
  match s.handle with
  | none => s.fs
  | some db => (Redb.mk s.fs db).drop

def onHandle (s : Session) (call : Redb → Redb) : Session :=
  match s.handle with
  | none => s
  | some db =>
    let r := call ⟨s.fs, db⟩
    { s with fs := r.fs, handle := some r.db }

def step (dbName : String) (s : Session) : RedbCall → Session
  | .openFile cfg =>
    { s with
      fs := s.dropped
      handle := (IonafsDatabaseFile.openFile s.dropped dbName cfg).toOption }
  | .create cfg =>
    let (res, fs) := IonafsDatabaseFile.create s.dropped dbName cfg
    { s with fs := fs, handle := res.toOption }
  | .readAt offset len => s.onHandle fun r => ((r.readAt offset len).map (·.2)).getD r
  | .writeAt offset data =>
    match s.handle with
    | none => s
    | some db =>
      match (Redb.mk s.fs db).writeAt offset data with
      | none => s
      | some (.error _, r) => { s with fs := r.fs, handle := some r.db }
      | some (.ok (), r) => ⟨r.fs, some r.db, s.written ++ [(offset, data)]⟩
  | .flush => s.onHandle fun r => r.flush.2
  | .syncAll => s.onHandle fun r => r.syncAll.2
  | .growTo newSize => s.onHandle fun r => (r.growTo newSize).2
  | .close => s.onHandle fun r => r.close.2

end Session

end IonaOs.Blockchain
