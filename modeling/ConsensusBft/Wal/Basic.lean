import ConsensusBft.Data.HashMap
import ConsensusBft.Data.U64
import ConsensusBft.Data.Rlp
import Mathlib.Data.List.Sort

/-!
# The write-ahead log

`wal.rs`: one file per height holds the records logged at that height, a file `index` holds the
current height in decimal.  A record is its length (`u32`, little-endian), its type and its bytes.

The disk is part of the state.  Every file operation may fail: operation number `n` has the
outcome `io n`, and a failing or short write leaves a part of its bytes behind.  An open file
stays attached to its name, since a file is only removed together with its handle.

* `Wal.new` : open the log of a directory.
* `Wal.setHeight` : move the index to a height, open its file and remove old files.
* `Wal.save` : append a record.
* `Wal.load` : the records of the current height and above.
-/

namespace ConsensusBft

/-- `io::Error`. -/
inductive IoError where
  | os
  | invalidData (msg : String)
deriving DecidableEq, Repr

/-- The outcome of a file operation.  A `short` write reports success after `n` bytes, a failed
write has written `n` bytes. -/
inductive IoOutcome where
  | ok
  | short (n : ℕ)
  | fail (n : ℕ)
deriving DecidableEq, Repr

/-- The directory of the log, and the number of file operations made so far. -/
structure Disk where
  dir : Bool
  index : Option Bytes
  logs : HashMap UInt64 Bytes
  ops : ℕ

/-- The log: the heights whose files are open, in increasing order, and the current height. -/
structure Wal where
  heightFs : List UInt64
  currentHeight : UInt64
deriving DecidableEq, Repr

/-- The log and the disk it writes to. -/
structure WalState where
  wal : Wal
  disk : Disk

/-- The number of heights below the current one whose files are kept. -/
def DELETE_FILE_INTERVAL : UInt64 := 3

/-! ### The text of the index -/

/-- `String::from_utf8` succeeds. -/
def isUtf8 (bytes : Bytes) : Bool := ByteArray.validateUTF8 ⟨bytes.toArray⟩

/-- `to_string` of a height, as bytes. -/
def decimal (h : UInt64) : Bytes := (Nat.toDigits 10 h.toNat).map fun c => c.toNat.toUInt8

/-- Decimal digits, continuing with the value `n`. -/
def parseDigits : Bytes → ℕ → Option ℕ
  | [], n => some n
  | d :: ds, n => if 48 ≤ d ∧ d ≤ 57 then parseDigits ds (10 * n + (d - 48).toNat) else none

/-- `str::parse::<u64>`: an optional `+` and at least one digit. -/
def parseU64 (b : Bytes) : Option UInt64 :=
  let digits := if b.head? = some 43 then b.tail else b
  if digits = [] then none
  else (parseDigits digits 0).bind fun n => if n < 2 ^ 64 then some (UInt64.ofNat n) else none

/-! ### Records -/

/-- `u32::to_le` as bytes. -/
def toLeBytes (n : UInt32) : Bytes :=
  [n.toUInt8, (n >>> 8).toUInt8, (n >>> 16).toUInt8, (n >>> 24).toUInt8]

/-- The `u32` of four little-endian bytes. -/
def fromLeBytes (b₀ b₁ b₂ b₃ : UInt8) : UInt32 :=
  b₀.toUInt32 + b₁.toUInt32 * 256 + b₂.toUInt32 * 65536 + b₃.toUInt32 * 16777216

/-- The records in the bytes that are left to read; the loop of `load` stops at the first record
that is not complete.  Every turn consumes five bytes or more, so the length is fuel enough. -/
def parseRecords : ℕ → Bytes → List (UInt8 × Bytes)
  | fuel + 1, b₀ :: b₁ :: b₂ :: b₃ :: mtype :: rest =>
    let bodylen := (fromLeBytes b₀ b₁ b₂ b₃).toNat
    if rest.length < bodylen then []
    else (mtype, rest.take bodylen) :: parseRecords fuel (rest.drop bodylen)
  | _, _ => []

/-! ### File operations -/

namespace Disk

variable (io : ℕ → IoOutcome)

/-- The outcome of the next operation. -/
def next : Exec IoError Disk IoOutcome := do
  let d ← get
  modify fun d => { d with ops := d.ops + 1 }
  return io d.ops

/-- An operation that changes no file: it succeeds or fails. -/
def attempt : Exec IoError Disk PUnit := do
  match ← next io with
  | .fail _ => throw (.err .os)
  | _ => pure ⟨⟩

/-- Open the file of a height, creating it if it is missing. -/
def openLog (h : UInt64) : Exec IoError Disk PUnit := do
  attempt io
  modify fun d => { d with logs := d.logs.orInsert h [] }

/-- Append bytes to the file of a height. -/
def append (h : UInt64) (b : Bytes) (d : Disk) : Disk :=
  { d with logs := d.logs.insert h ((d.logs.lookup h).getD [] ++ b) }

/-- `write_all` at the end of the file of a height. -/
def writeAll (h : UInt64) (b : Bytes) : Exec IoError Disk PUnit := do
  match ← next io with
  | .fail n => do
    modify (append h (b.take n))
    throw (.err .os)
  | _ => modify (append h b)

/-- `write` at the end of the file of a height: the number of bytes written. -/
def write (h : UInt64) (b : Bytes) : Exec IoError Disk ℕ := do
  match ← next io with
  | .fail _ => throw (.err .os)
  | .short n => do
    modify (append h (b.take n))
    return (b.take n).length
  | .ok => do
    modify (append h b)
    return b.length

/-- The index after `set_len`. -/
def resize (b : Bytes) (n : ℕ) : Bytes := b.take n ++ List.replicate (n - b.length) 0

/-- `set_len` on the index; a failure is ignored. -/
def setIndexLen (n : ℕ) : Exec IoError Disk PUnit := do
  match ← next io with
  | .fail _ => pure ⟨⟩
  | _ => modify fun d => { d with index := d.index.map (resize · n) }

/-- The index after its first bytes are overwritten. -/
def overwrite (b new : Bytes) : Bytes := new ++ b.drop new.length

/-- `write_all` at the start of the index. -/
def writeIndex (b : Bytes) : Exec IoError Disk PUnit := do
  match ← next io with
  | .fail n => do
    modify fun d => { d with index := d.index.map (overwrite · (b.take n)) }
    throw (.err .os)
  | _ => modify fun d => { d with index := d.index.map (overwrite · b) }

/-- `remove_file`; a failure is ignored. -/
def removeLog (h : UInt64) : Exec IoError Disk PUnit := do
  match ← next io with
  | .fail _ => pure ⟨⟩
  | _ => modify fun d => { d with logs := d.logs.erase h }

end Disk

/-! ### The log -/

namespace Wal

variable (io : ℕ → IoOutcome)

/-- A disk operation as an operation of the log. -/
def onDisk {α : Type} (m : Exec IoError Disk α) : Exec IoError WalState α :=
  Exec.zoom WalState.disk (fun d s => { s with disk := d }) m

/-- Insert a handle into the map of open files. -/
def openHandle (h : UInt64) (heightFs : List UInt64) : List UInt64 :=
  if h ∈ heightFs then heightFs else heightFs.orderedInsert (· ≤ ·) h

/-- `Wal::new`: the directory is created if it cannot be read, an empty index stands for `0`. -/
def new : Exec IoError Disk Wal := do
  let d ← get
  let readable := match ← Disk.next io with
    | .fail _ => false
    | _ => d.dir
  Exec.doIf (!readable) do
    -- `expect("Create wal directory failed!")`
    match ← Disk.next io with
    | .fail _ => throw .panicked
    | _ => modify fun d => { d with dir := true }
  Disk.attempt io
  modify fun d => { d with index := some (d.index.getD []) }
  -- seeking the index: `expect`
  match ← Disk.next io with
  | .fail _ => throw .panicked
  | _ => pure ⟨⟩
  Disk.attempt io
  let d ← get
  let buf := d.index.getD []
  let curHeight ← if buf = [] then pure 0 else match parseU64 buf with
    | some h => pure h
    | none =>
      -- `read_to_string` fails before, on bytes that are no text: these are no number either
      throw (.err (.invalidData
        (if isUtf8 buf then "index file data wrong" else "stream did not contain valid UTF-8")))
  Disk.openLog io curHeight
  return { heightFs := [curHeight], currentHeight := curHeight }

/-- `Wal::set_height`. -/
def setHeight (height : UInt64) : Exec IoError WalState PUnit := do
  modify fun s => { s with wal.currentHeight := height }
  onDisk (Disk.attempt io)
  let content := decimal height
  onDisk (Disk.setIndexLen io content.length)
  onDisk (Disk.writeIndex io content)
  onDisk (Disk.attempt io)
  onDisk (Disk.openLog io height)
  modify fun s => { s with wal.heightFs := openHandle height s.wal.heightFs }
  Exec.doIf (DELETE_FILE_INTERVAL < height) do
    let s ← get
    let limit := height - DELETE_FILE_INTERVAL
    (s.wal.heightFs.filter (· < limit)).forM fun h => onDisk (Disk.removeLog io h)
    modify fun s => { s with wal.heightFs := s.wal.heightFs.filter (limit ≤ ·) }

/-- The first part of `Wal::save`: open the file of the next height if it is missing.  Returns
whether the height is further ahead than that. -/
def openNext (checks : Bool) (height : UInt64) : Exec IoError WalState Bool := do
  let s ← get
  if height ∈ s.wal.heightFs then return false
  else do
    let next ← Exec.lift (add64 checks s.wal.currentHeight 1)
    if next < height then return true
    else do
      Exec.doIf (height = next) do
        onDisk (Disk.openLog io height)
        modify fun s => { s with wal.heightFs := openHandle height s.wal.heightFs }
      return false

/-- `Wal::save`: records more than one height ahead are dropped, empty ones too. -/
def save (checks : Bool) (height : UInt64) (mtype : UInt8) (msg : Bytes) :
    Exec IoError WalState ℕ := do
  if ← openNext io checks height then return 0
  else if msg = [] then return 0
  else do
    let s ← get
    if height ∈ s.wal.heightFs then do
      onDisk (Disk.attempt io)
      onDisk (Disk.writeAll io height (toLeBytes (UInt32.ofNat msg.length)))
      onDisk (Disk.writeAll io height [mtype])
      let hlen ← onDisk (Disk.write io height msg)
      onDisk (Disk.attempt io)
      return hlen
    else return 0

/-- The loop of `Wal::load` over the open files.  `buf` is the read buffer, which is shared by
all files and never cleared. -/
def loadFiles (cur : UInt64) :
    List UInt64 → Bytes → List (UInt8 × Bytes) → Exec IoError WalState (List (UInt8 × Bytes))
  | [], _, out => return out
  | h :: hs, buf, out =>
    if h < cur then loadFiles cur hs buf out
    else do
      -- seeking: `expect`
      match ← onDisk (Disk.next io) with
      | .fail _ => throw .panicked
      | _ => pure ⟨⟩
      match ← onDisk (Disk.next io) with
      | .fail _ => return out
      | _ => do
        let s ← get
        let content := (s.disk.logs.lookup h).getD []
        let buf := buf ++ content
        let fsize := content.length
        if fsize ≤ 5 then return out
        else loadFiles cur hs buf (out ++ parseRecords fsize (buf.take fsize))

/-- `Wal::load`. -/
def load : Exec IoError WalState (List (UInt8 × Bytes)) := do
  let s ← get
  if s.wal.heightFs = [] ∨ s.wal.currentHeight = 0 then return []
  else loadFiles io s.wal.currentHeight s.wal.heightFs [] []

/-! ### When no file operation fails -/

/-- The computation returns a value. -/
abbrev Returns {σ α : Type} (m : Exec IoError σ α) (s : σ) : Prop :=
  Exec.wp m (fun _ _ => True) (fun _ _ => False) s

theorem Returns.bind {σ α β : Type} {m : Exec IoError σ α} {f : α → Exec IoError σ β} {s : σ}
    (h : Returns m s) (hf : ∀ a s', Returns (f a) s') : Returns (m >>= f) s :=
  Exec.wp_bind.2 (Exec.wp.mono h (fun a s' _ => hf a s') fun _ _ h => h)

variable {io}

theorem onDisk_returns {α : Type} {m : Exec IoError Disk α} (h : ∀ d, Returns m d)
    (w : WalState) : Returns (onDisk m) w :=
  Exec.wp_zoom.2 (h w.disk)

/-- Moving to another height succeeds. -/
theorem setHeight_returns (hio : ∀ n, io n = .ok) (height : UInt64) (w : WalState) :
    Returns (setHeight io height) w := by
  have attempt : ∀ d, Returns (Disk.attempt io) d := by
    intro d
    simp [Disk.attempt, Disk.next, Exec.wp_bind, hio]
  have setLen : ∀ d, Returns (Disk.setIndexLen io (decimal height).length) d := by
    intro d
    simp [Disk.setIndexLen, Disk.next, Exec.wp_bind, hio]
  have writeIndex : ∀ d, Returns (Disk.writeIndex io (decimal height)) d := by
    intro d
    simp [Disk.writeIndex, Disk.next, Exec.wp_bind, hio]
  have openLog : ∀ d, Returns (Disk.openLog io height) d := by
    intro d
    exact Returns.bind (attempt d) fun _ _ => trivial
  have removeLog : ∀ h d, Returns (Disk.removeLog io h) d := by
    intro h d
    simp [Disk.removeLog, Disk.next, Exec.wp_bind, hio]
  unfold setHeight
  refine Returns.bind trivial fun _ _ => .bind (onDisk_returns attempt _) fun _ _ =>
    .bind (onDisk_returns setLen _) fun _ _ => .bind (onDisk_returns writeIndex _) fun _ _ =>
    .bind (onDisk_returns attempt _) fun _ _ => .bind (onDisk_returns openLog _) fun _ _ =>
    .bind trivial fun _ w => Exec.wp_doIf.2 ⟨fun _ => ?_, fun _ => trivial⟩
  -- the loop removes the files of old heights
  refine Returns.bind trivial fun w₁ w₂ => .bind ?_ fun _ _ => trivial
  exact Exec.wp_forM (fun h _ w _ => onDisk_returns (removeLog h) w) trivial

end Wal

end ConsensusBft
