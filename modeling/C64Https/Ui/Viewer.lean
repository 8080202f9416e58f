import C64Https.Lib.Bytes
import C64Https.Lib.Loop
import C64Https.Lib.Word

/-!
# Viewer — scrolling through a document (`src/viewer.s`)

A document in the REU is shown in rows of forty columns.  `render_row` goes forward from a row to the
next one, `scroll_up_one` goes back from a row to the one before it, and both read the document through
a window of 3,584 bytes that is loaded when it is needed.

Going forward is described by where a row ends (`RowEnds`), going back by the distance to the line feed
before the line (`scrollUpOne_behind`).  From every row that is reached from the beginning, going back
comes to the row before it, whatever window is loaded (`scrollUpOne_preceding`); over a whole session the
screen shows the rows from the one on that the keys count to (`viewerEnter_row`).
-/

namespace C64Https
namespace Ui

open Bytes Loop Word

/-! ## State -/

/-- `VW_COLS`, `VW_WIN_SIZE` and `VW_WIN_BACK`. -/
def vwCols : Nat :=
  40

def vwWinSize : Nat :=
  0xe00

def vwWinBack : Nat :=
  0x400

def lineFeed : UInt8 :=
  0x0a

def carriageReturn : UInt8 :=
  0x0d

/-- The document: what the REU holds from `HTTP_REU_BODY_BASE` on, by the offset, and
`http_body_total`. -/
structure Doc where
  bytes : Buffer
  total : Nat
  total_lt : total < 16777216

structure Viewer where
  /-- `vw_top`, which is `viewer_offset` -/
  top : Nat
  win : Nat
  wok : Bool
  cur : Nat
  req : Nat
  tmp : Nat
  cnt : Nat
  /-- `VW_WIN_BUF` -/
  buf : Buffer
  /-- the operand of `row_store`, and the screen -/
  rowBase : Nat
  screen : Buffer
  /-- `VW_TBL`, by the entry -/
  tbl : Nat → Nat

/-- Three `sbc`, from the lowest byte up. -/
def sub24 (a b : Nat) : Nat :=
  (a + 16777216 - b) % 16777216

/-! ## The window -/

/-- The transfer from the REU, whose addresses have 24 bits. -/
def fetchWindow (d : Doc) (win : Nat) (buf : Buffer) : Buffer :=
  fun i => if i < vwWinSize then d.bytes ((win + i) % 16777216) else buf i

def ensureWindow (d : Doc) (v : Viewer) : Viewer :=
  let v := { v with tmp := if v.req < vwWinBack then 0 else v.req - vwWinBack }
  if v.wok ∧ v.tmp = v.win then v
  else { v with win := v.tmp, wok := true, buf := fetchWindow d v.tmp v.buf }

def getbyteTurn (d : Doc) (v : Viewer) : Turn Viewer (Viewer × UInt8) :=
  let t := sub24 v.cur v.win
  if 65536 ≤ t ∨ v.wok = false ∨ vwWinSize ≤ t then .again (ensureWindow d { v with req := v.cur })
  else .leave (v, v.buf t)

/-- `getbyte`; the second time round the byte is in the window. -/
def getbyte (d : Doc) (v : Viewer) : Option (Viewer × UInt8) :=
  loop (getbyteTurn d) 2 v

/-! ## Going forward -/

def incCur (v : Viewer) : Viewer :=
  { v with cur := inc24 v.cur }

def convAscii (b : UInt8) : UInt8 :=
  if b < 0x20 then 0x20
  else if b < 0x40 then b
  else if b < 0x60 then b - 0x40
  else if b < 0x61 then 0x20
  else if 0x7b ≤ b then 0x20
  else b - 0x60

def rowStore (x : Nat) (a : UInt8) (v : Viewer) : Viewer :=
  { v with screen := Function.update v.screen (v.rowBase + x) a }

/-- `@fill`, from column `x` on. -/
def rowFill (x : Nat) (v : Viewer) : Viewer :=
  (List.range' x (vwCols - x)).foldl (fun v x => rowStore x 0x20 v) v

/-- Behind the last column: a line feed there is eaten. -/
def rowWrapped (d : Doc) (v : Viewer) : Option Viewer :=
  if d.total ≤ v.cur then some v
  else (getbyte d v).map fun s => if s.2 = lineFeed then incCur s.1 else s.1

/-- What `render_row` does at column `x` with the byte it got. -/
def rowByte (d : Doc) (x : Nat) (s : Viewer × UInt8) : Turn (Viewer × Nat) (Option Viewer) :=
  if s.2 = lineFeed then .leave (some (rowFill x (incCur s.1)))
  else if s.2 = carriageReturn then .again (incCur s.1, x)
  else
    let v := incCur (rowStore x (convAscii (if s.2 = 0x09 then 0x20 else s.2)) s.1)
    if x + 1 ≠ vwCols then .again (v, x + 1) else .leave (rowWrapped d v)

/-- A turn of `render_row`: the viewer and the column. -/
def rowTurn (d : Doc) (s : Viewer × Nat) : Turn (Viewer × Nat) (Option Viewer) :=
  if d.total ≤ s.1.cur then .leave (some (rowFill s.2 s.1))
  else (getbyte d s.1).elim (.leave none) (rowByte d s.2)

/-- `render_row`; every turn takes a byte of the document. -/
def renderRow (d : Doc) (v : Viewer) : Option Viewer :=
  (loop (rowTurn d) 16777217 (v, 0)).join

/-! ## A screen -/

def vwRows : Nat :=
  24

def screenBase : Nat :=
  0x0400

/-- `CONTENT_ROW0`. -/
def contentRow0 : Nat :=
  screenBase + 40

def clearScreen (v : Viewer) : Viewer :=
  { v with screen := fun i => if screenBase ≤ i ∧ i < screenBase + 1000 then 0x20 else v.screen i }

/-- The place of the cursor goes to the table. -/
def recordRow (i : Nat) (v : Viewer) : Viewer :=
  { v with tbl := Function.update v.tbl i v.cur }

def nextBase (v : Viewer) : Viewer :=
  { v with rowBase := add16 v.rowBase vwCols }

/-- `@rowloop` with `k` rows left, and entry 24 behind them. -/
def renderRows (d : Doc) : Nat → Viewer → Option Viewer
  | 0, v => some (recordRow vwRows v)
  | k + 1, v => (renderRow d (recordRow (vwRows - (k + 1)) v)).bind fun v => renderRows d k (nextBase v)

/-- `render_core`, without the text of the status row. -/
def renderCore (d : Doc) (v : Viewer) : Option Viewer :=
  if d.total = 0 then some (clearScreen v)
  else renderRows d vwRows { ensureWindow d { v with cur := v.top, req := v.top } with
    rowBase := contentRow0 }

/-! ## Going back -/

def topZero (v : Viewer) : Viewer :=
  { v with top := 0 }

/-- `@sub40`, with the underflow guard. -/
def topSub40 (v : Viewer) : Viewer :=
  if v.top < 40 then topZero v else { v with top := sub24 v.top 40 }

/-- How `@sloop` ends, and its count. -/
inductive ScanEnd where
  | found (c : Nat)
  | floor (c : Nat)
  deriving DecidableEq, Repr

/-- `@sloop`, from place `i` of the window on. -/
def scanBack (buf : Buffer) : Nat → Nat → ScanEnd
  | 0, c => if buf 0 = lineFeed then .found c else .floor c
  | i + 1, c => if buf (i + 1) = lineFeed then .found c else scanBack buf i (inc16 c)

/-- `@mod`: forty is taken off until less is left. -/
def modLoop (m : Nat) : Nat :=
  if m < 40 then m else modLoop (m - 40)

/-- `@modok`. -/
def topBack (v : Viewer) (m : Nat) : Viewer :=
  { v with tmp := modLoop m + 2, top := sub24 v.top (modLoop m + 2) }

/-- `@floor` and `@found`. -/
def topScanned (v : Viewer) : ScanEnd → Viewer
  | .floor c => if v.win = 0 then topBack v c else topSub40 v
  | .found c => if c = 0 then { v with top := sub24 v.top 1 } else topBack v (c - 1)

/-- From `idx_top` on. -/
def scrollUpFrom (v : Viewer) : Viewer :=
  if v.buf (sub16 v.cnt 1) ≠ lineFeed then topSub40 v
  else if v.cnt < 2 then topZero v
  else topScanned v (scanBack v.buf (sub16 v.cnt 2) 0)

def idxTop (v : Viewer) : Viewer :=
  { v with cnt := sub16 v.top v.win }

def scrollUpOne (d : Doc) (v : Viewer) : Viewer :=
  if v.top = 0 then v else scrollUpFrom (idxTop (ensureWindow d { v with req := v.top }))

/-! ## The keys -/

/-- An entry that is at the end of the document or behind it is not taken. -/
def takeTblEntry (d : Doc) (i : Nat) (v : Viewer) : Viewer :=
  if d.total ≤ v.tbl i then v else { v with top := v.tbl i }

inductive ViewerKey where
  | down
  | up
  | pgdn
  | pgup
  | home
  deriving DecidableEq, Repr

inductive KeyDo where
  | again
  | quit
  | move (k : ViewerKey)
  deriving DecidableEq, Repr

/-- The comparisons of `@key`. -/
def keyDo (a : UInt8) : KeyDo :=
  if a = 0 then .again
  else if a = 0x51 then .quit
  else if a = 0x71 then .quit
  else if a = 0x11 then .move .down
  else if a = 0x91 then .move .up
  else if a = 0x20 then .move .pgdn
  else if a = 0x85 then .move .pgup
  else if a = 0x13 then .move .home
  else .again

/-- What a key does before `@redraw`. -/
def moveTop (d : Doc) (k : ViewerKey) (v : Viewer) : Viewer :=
  match k with
  | .down => takeTblEntry d 1 v
  | .up => scrollUpOne d v
  | .pgdn => takeTblEntry d vwRows v
  | .pgup => (scrollUpOne d)^[vwRows] v
  | .home => topZero v

/-- `@key`, over what `getin` delivers. -/
def viewerKeys (d : Doc) : List UInt8 → Viewer → Option Viewer
  | [], v => some v
  | a :: as, v =>
      match keyDo a with
      | .again => viewerKeys d as v
      | .quit => some v
      | .move k => (renderCore d (moveTop d k v)).bind (viewerKeys d as)

def viewerEnter (d : Doc) (as : List UInt8) (v : Viewer) : Option Viewer :=
  (renderCore d (topZero { v with wok := false })).bind (viewerKeys d as)

/-! ## The window holds the document -/

section Window

variable {d : Doc} {v : Viewer}

/-- Neither the top nor the table is touched. -/
structure Kept (v v' : Viewer) : Prop where
  top : v'.top = v.top
  tbl : v'.tbl = v.tbl

theorem Kept.same (v : Viewer) : Kept v v :=
  ⟨rfl, rfl⟩

theorem Kept.trans {u v w : Viewer} (h : Kept u v) (h' : Kept v w) : Kept u w :=
  ⟨h'.top.trans h.top, h'.tbl.trans h.tbl⟩

/-- Nor is the screen, nor the place that the next row has on it. -/
structure Still (v v' : Viewer) : Prop extends Kept v v' where
  rowBase : v'.rowBase = v.rowBase
  screen : v'.screen = v.screen

theorem Still.same (v : Viewer) : Still v v :=
  ⟨Kept.same v, rfl, rfl⟩

/-- What is loaded is the document. -/
structure Loaded (d : Doc) (v : Viewer) : Prop where
  bytes : v.wok = true → ∀ i < vwWinSize, v.buf i = d.bytes ((v.win + i) % 16777216)
  win_lt : v.win < 16777216

theorem ensureWindow_spec (h : Loaded d v) (hreq : v.req < 16777216) :
    Loaded d (ensureWindow d v) ∧ (ensureWindow d v).wok = true ∧
      (ensureWindow d v).win = (if v.req < vwWinBack then 0 else v.req - vwWinBack) ∧
      (ensureWindow d v).cur = v.cur ∧ Still v (ensureWindow d v) := by
  unfold ensureWindow
  dsimp only
  by_cases hsame : v.wok = true ∧ (if v.req < vwWinBack then 0 else v.req - vwWinBack) = v.win
  · rw [if_pos hsame]
    exact ⟨⟨h.bytes, h.win_lt⟩, hsame.1, hsame.2.symm, rfl, ⟨rfl, rfl⟩, rfl, rfl⟩
  · rw [if_neg hsame]
    refine ⟨⟨fun _ i hi => if_pos hi, ?_⟩, rfl, rfl, rfl, ⟨rfl, rfl⟩, rfl, rfl⟩
    dsimp only
    split
    · exact Nat.zero_lt_of_lt hreq
    · omega

/-- Inside the window the byte at the cursor is the document's. -/
theorem getbyteTurn_inside (h : Loaded d v) (hcur : v.cur < 16777216) (hok : v.wok = true)
    (hin : sub24 v.cur v.win < vwWinSize) : getbyteTurn d v = .leave (v, d.bytes v.cur) := by
  have hsize : vwWinSize = 3584 := rfl
  have hbyte := h.bytes hok _ hin
  have hwin := h.win_lt
  have hplace : (v.win + sub24 v.cur v.win) % 16777216 = v.cur := by
    unfold sub24
    omega
  rw [hplace] at hbyte
  unfold getbyteTurn
  dsimp only
  rw [if_neg, hbyte]
  rintro (hfar | hno | hout)
  · omega
  · rw [hok] at hno
    exact Bool.noConfusion hno
  · omega

theorem getbyte_spec (h : Loaded d v) (hcur : v.cur < 16777216) :
    ∃ v', getbyte d v = some (v', d.bytes v.cur) ∧ Loaded d v' ∧ v'.cur = v.cur ∧ Still v v' := by
  by_cases hin : 65536 ≤ sub24 v.cur v.win ∨ v.wok = false ∨ vwWinSize ≤ sub24 v.cur v.win
  · -- the window is loaded around the cursor
    have hload : Loaded d { v with req := v.cur } := ⟨h.bytes, h.win_lt⟩
    obtain ⟨hloaded, hok, hwin, hsame, hkept⟩ := ensureWindow_spec hload hcur
    have hturn : getbyteTurn d v = .again (ensureWindow d { v with req := v.cur }) := if_pos hin
    dsimp only at hwin hsame
    have hinside : sub24 (ensureWindow d { v with req := v.cur }).cur
        (ensureWindow d { v with req := v.cur }).win < vwWinSize := by
      have hsize : vwWinSize = 3584 := rfl
      have hback : vwWinBack = 1024 := rfl
      rw [hsame, hwin, hsize, hback]
      unfold sub24
      split <;> omega
    have hleave := getbyteTurn_inside hloaded (by rw [hsame]; exact hcur) hok hinside
    rw [hsame] at hleave
    exact ⟨_, (loop_again hturn).trans (loop_leave hleave), hloaded, hsame,
      ⟨hkept.top, hkept.tbl⟩, hkept.rowBase, hkept.screen⟩
  · rw [not_or, not_or] at hin
    have hleave := getbyteTurn_inside h hcur (Bool.eq_true_of_not_eq_false hin.2.1)
      (Nat.lt_of_not_le hin.2.2)
    exact ⟨v, loop_leave hleave, h, rfl, Still.same v⟩

end Window

/-! ## Where a row ends -/

section Rows

variable {d : Doc} {v : Viewer}

/-- A piece of the document without a line feed. -/
def Plain (d : Doc) (p n : Nat) : Prop :=
  ∀ i < n, d.bytes (p + i) ≠ lineFeed

/-- The row from `p` on ends, and the next one begins at `r`: behind a line feed, behind forty columns
and the line feed that follows them, behind forty columns, or at the end of the document. -/
inductive RowEnds (d : Doc) (p : Nat) : Nat → Prop where
  | feed {j : Nat} (hj : j < vwCols) (hplain : Plain d p j) (hin : p + j < d.total)
      (hfeed : d.bytes (p + j) = lineFeed) : RowEnds d p (p + j + 1)
  | wrapFeed (hplain : Plain d p vwCols) (hin : p + vwCols < d.total)
      (hfeed : d.bytes (p + vwCols) = lineFeed) : RowEnds d p (p + vwCols + 1)
  | wrap (hplain : Plain d p vwCols) (hin : p + vwCols < d.total)
      (hfeed : d.bytes (p + vwCols) ≠ lineFeed) : RowEnds d p (p + vwCols)
  | eof {j : Nat} (hj : j ≤ vwCols) (hplain : Plain d p j) (hend : p + j = d.total) :
      RowEnds d p (p + j)

instance (d : Doc) (p n : Nat) : Decidable (Plain d p n) :=
  inferInstanceAs (Decidable (∀ i < n, d.bytes (p + i) ≠ lineFeed))

/-- A tab is a space. -/
def screenCode (b : UInt8) : UInt8 :=
  convAscii (if b = 0x09 then 0x20 else b)

/-- What column `x` shows of the row from `p` on: its byte there, or a space behind its line feed and
behind the document. -/
def rowChar (d : Doc) (p x : Nat) : UInt8 :=
  if p + x < d.total ∧ Plain d p (x + 1) then screenCode (d.bytes (p + x)) else 0x20

/-- The forty columns at the place of the row show the row from `p` on, and nothing else of the screen is
written. -/
structure Drawn (d : Doc) (p : Nat) (v v' : Viewer) : Prop where
  rowBase : v'.rowBase = v.rowBase
  row : ∀ x < vwCols, v'.screen (v.rowBase + x) = rowChar d p x
  rest : ∀ a, (a < v.rowBase ∨ v.rowBase + vwCols ≤ a) → v'.screen a = v.screen a

/-- The columns before `x` show the row from `p` on, and nothing else is written. -/
structure DrawnTo (d : Doc) (p x : Nat) (v v' : Viewer) : Prop where
  rowBase : v'.rowBase = v.rowBase
  row : ∀ y < x, v'.screen (v.rowBase + y) = rowChar d p y
  rest : ∀ a, (a < v.rowBase ∨ v.rowBase + vwCols ≤ a) → v'.screen a = v.screen a

theorem rowStore_screen_self (x : Nat) (a : UInt8) (v : Viewer) :
    (rowStore x a v).screen (v.rowBase + x) = a := by
  simp only [rowStore, Function.update_self]

theorem rowStore_screen_ne {x i : Nat} (a : UInt8) (v : Viewer) (h : i ≠ v.rowBase + x) :
    (rowStore x a v).screen i = v.screen i := by
  simp only [rowStore, Function.update_of_ne h]

theorem DrawnTo.still {p x : Nat} {u v w : Viewer} (h : DrawnTo d p x u v) (hstill : Still v w) :
    DrawnTo d p x u w := by
  refine ⟨hstill.rowBase.trans h.rowBase, ?_, ?_⟩
  · rw [hstill.screen]
    exact h.row
  · rw [hstill.screen]
    exact h.rest

/-- One column more. -/
theorem DrawnTo.store {p x : Nat} {u v : Viewer} (h : DrawnTo d p x u v) (hx : x < vwCols) :
    DrawnTo d p (x + 1) u (rowStore x (rowChar d p x) v) := by
  have hbase := h.rowBase
  refine ⟨hbase, fun y hy => ?_, fun a ha => ?_⟩
  · by_cases hlast : y = x
    · rw [hlast, ← hbase]
      exact rowStore_screen_self x _ v
    · rw [rowStore_screen_ne _ v (by omega)]
      exact h.row y (by omega)
  · rw [rowStore_screen_ne _ v (by omega)]
    exact h.rest a ha

theorem DrawnTo.drawn {p : Nat} {u v : Viewer} (h : DrawnTo d p vwCols u v) : Drawn d p u v :=
  ⟨h.rowBase, h.row, h.rest⟩

/-- Where the row is at its end the other columns are blank. -/
theorem DrawnTo.fill {p x : Nat} {u v : Viewer} (h : DrawnTo d p x u v) (hx : x ≤ vwCols)
    (hblank : ∀ y, x ≤ y → rowChar d p y = 0x20) : Drawn d p u (rowFill x v) := by
  unfold rowFill
  obtain ⟨k, hk⟩ : ∃ k, vwCols = x + k := ⟨vwCols - x, by omega⟩
  rw [show vwCols - x = k by omega]
  induction k generalizing x v with
  | zero =>
      rw [Nat.add_zero] at hk
      exact DrawnTo.drawn (by rw [hk]; exact h)
  | succ k ih =>
      rw [List.range'_succ, List.foldl_cons]
      have hstored := h.store (by omega)
      rw [hblank x (Nat.le_refl x)] at hstored
      exact ih hstored (by omega) (fun y hy => hblank y (by omega)) (by omega)

theorem rowFill_kept (x : Nat) (v : Viewer) : (rowFill x v).cur = v.cur ∧
    Kept v (rowFill x v) ∧ (rowFill x v).buf = v.buf ∧ (rowFill x v).win = v.win ∧
      (rowFill x v).wok = v.wok := by
  unfold rowFill
  generalize List.range' x (vwCols - x) = is
  induction is generalizing v with
  | nil => exact ⟨rfl, Kept.same v, rfl, rfl, rfl⟩
  | cons i is ih =>
      obtain ⟨hcur, hkept, hrest⟩ := ih (rowStore i 0x20 v)
      exact ⟨hcur, ⟨hkept.top, hkept.tbl⟩, hrest⟩

theorem Loaded.fill (h : Loaded d v) (x : Nat) : Loaded d (rowFill x v) := by
  obtain ⟨-, -, hbuf, hwin, hok⟩ := rowFill_kept x v
  refine ⟨?_, ?_⟩
  · rw [hbuf, hwin, hok]
    exact h.bytes
  · rw [hwin]
    exact h.win_lt

theorem incCur_cur (h : v.cur < d.total) : (incCur v).cur = v.cur + 1 := by
  have hlt := d.total_lt
  exact inc24_of_lt (by omega)

theorem rowTurn_byte (x : Nat) {s : Viewer × UInt8} (hend : ¬ d.total ≤ v.cur)
    (hbyte : getbyte d v = some s) : rowTurn d (v, x) = rowByte d x s := by
  have hstep : rowTurn d (v, x) = (getbyte d v).elim (.leave none) (rowByte d x) := if_neg hend
  rw [hstep, hbyte, Option.elim_some]

/-- Behind the last column. -/
theorem rowWrapped_ends (h : Loaded d v) {p : Nat} (hplain : Plain d p vwCols)
    (hcur : v.cur = p + vwCols) (hle : v.cur ≤ d.total) :
    ∃ v', rowWrapped d v = some v' ∧ Loaded d v' ∧ RowEnds d p v'.cur ∧ Still v v' := by
  have hlt := d.total_lt
  unfold rowWrapped
  by_cases hend : d.total ≤ v.cur
  · rw [if_pos hend]
    refine ⟨v, rfl, h, ?_, Still.same v⟩
    rw [hcur]
    exact .eof (Nat.le_refl _) hplain (by omega)
  · obtain ⟨u, hbyte, hload, hsame, hkept⟩ := getbyte_spec h (by omega)
    rw [if_neg hend, hbyte, Option.map_some]
    dsimp only
    by_cases hfeed : d.bytes v.cur = lineFeed
    · rw [if_pos hfeed]
      refine ⟨incCur u, rfl, ⟨hload.bytes, hload.win_lt⟩, ?_, ⟨hkept.top, hkept.tbl⟩, hkept.rowBase,
        hkept.screen⟩
      rw [incCur_cur (d := d) (by omega), hsame, hcur]
      rw [hcur] at hfeed hend
      exact .wrapFeed hplain (by omega) hfeed
    · rw [if_neg hfeed]
      refine ⟨u, rfl, hload, ?_, hkept⟩
      rw [hsame, hcur]
      rw [hcur] at hfeed hend
      exact .wrap hplain (by omega) hfeed

/-- The row from column `x` on. -/
theorem rowLoop_ends (hcr : ∀ i < d.total, d.bytes i ≠ carriageReturn) (o : Viewer) (p k : Nat) :
    ∀ (n x : Nat) (v : Viewer), x + k = vwCols → 0 < k → k < n → Loaded d v → v.cur = p + x →
      v.cur ≤ d.total → Plain d p x → DrawnTo d p x o v →
        ∃ v', loop (rowTurn d) n (v, x) = some (some v') ∧ Loaded d v' ∧ RowEnds d p v'.cur ∧
          Kept v v' ∧ Drawn d p o v' := by
  have hlt := d.total_lt
  induction k with
  | zero =>
      intro n x v _ hpos
      exact absurd hpos (Nat.lt_irrefl 0)
  | succ k ih =>
      intro n x v hx _ hn hload hcur hle hplain hdrawn
      obtain ⟨n, rfl⟩ : ∃ m, n = m + 1 := ⟨n - 1, by omega⟩
      by_cases hend : d.total ≤ v.cur
      · -- the end of the document: the other columns are blank
        have hturn : rowTurn d (v, x) = .leave (some (rowFill x v)) := if_pos hend
        obtain ⟨hsame, hkept, -⟩ := rowFill_kept x v
        have hblank : ∀ y, x ≤ y → rowChar d p y = 0x20 := fun y hy =>
          if_neg fun hin => absurd hin.1 (by omega)
        refine ⟨_, loop_leave hturn, hload.fill x, ?_, hkept, hdrawn.fill (by omega) hblank⟩
        rw [hsame, hcur]
        exact .eof (by omega) hplain (by omega)
      obtain ⟨u, hbyte, hloaded, hsame, hkept⟩ := getbyte_spec hload (by omega)
      by_cases hfeed : d.bytes v.cur = lineFeed
      · -- the line feed is taken, and not shown
        have hturn : rowTurn d (v, x) = .leave (some (rowFill x (incCur u))) :=
          (rowTurn_byte x hend hbyte).trans (if_pos hfeed)
        obtain ⟨hcur', hfilled, -⟩ := rowFill_kept x (incCur u)
        have hinc : Loaded d (incCur u) := ⟨hloaded.bytes, hloaded.win_lt⟩
        have hblank : ∀ y, x ≤ y → rowChar d p y = 0x20 := fun y hy =>
          if_neg fun hin => hin.2 x (by omega) (by rw [← hcur]; exact hfeed)
        have hstill : Still v (incCur u) := ⟨⟨hkept.top, hkept.tbl⟩, hkept.rowBase, hkept.screen⟩
        refine ⟨_, loop_leave hturn, hinc.fill x, ?_, hstill.toKept.trans ⟨hfilled.top, hfilled.tbl⟩,
          (hdrawn.still hstill).fill (by omega) hblank⟩
        rw [hcur', incCur_cur (d := d) (by omega), hsame, hcur]
        rw [hcur] at hfeed hend
        exact .feed (by omega) hplain (by omega) hfeed
      · -- a byte that is shown in column `x`
        have hnocr := hcr v.cur (by omega)
        have hmore : Plain d p (x + 1) := by
          intro i hi
          by_cases hlast : i = x
          · rw [hlast, ← hcur]
            exact hfeed
          · exact hplain i (by omega)
        have hchar : rowChar d p x =
            convAscii (if d.bytes v.cur = 0x09 then 0x20 else d.bytes v.cur) := by
          rw [hcur]
          exact if_pos ⟨by omega, hmore⟩
        have hput : DrawnTo d p (x + 1) o (incCur (rowStore x (rowChar d p x) u)) :=
          ((hdrawn.still hkept).store (by omega)).still ⟨⟨rfl, rfl⟩, rfl, rfl⟩
        rw [hchar] at hput
        generalize hw : incCur (rowStore x
          (convAscii (if d.bytes v.cur = 0x09 then 0x20 else d.bytes v.cur)) u) = w at hput
        have hturn : rowTurn d (v, x) =
            if x + 1 ≠ vwCols then .again (w, x + 1) else .leave (rowWrapped d w) := by
          rw [rowTurn_byte x hend hbyte, ← hw]
          exact (if_neg hfeed).trans (if_neg hnocr)
        have hwload : Loaded d w := by
          rw [← hw]
          exact ⟨hloaded.bytes, hloaded.win_lt⟩
        have hwcur : w.cur = p + (x + 1) := by
          have hstored : (rowStore x
              (convAscii (if d.bytes v.cur = 0x09 then 0x20 else d.bytes v.cur)) u).cur = u.cur := rfl
          rw [← hw, incCur_cur (d := d) (by rw [hstored]; omega), hstored, hsame, hcur]
          omega
        have hwkept : Kept v w := by
          rw [← hw]
          exact ⟨hkept.top, hkept.tbl⟩
        by_cases hcol : x + 1 = vwCols
        · rw [if_neg (not_not.2 hcol)] at hturn
          rw [hcol] at hmore hwcur hput
          obtain ⟨v', hrow, hload', hends, hstill⟩ := rowWrapped_ends hwload hmore hwcur (by omega)
          rw [hrow] at hturn
          exact ⟨v', loop_leave hturn, hload', hends, hwkept.trans hstill.toKept,
            (hput.still hstill).drawn⟩
        · rw [if_pos hcol] at hturn
          obtain ⟨v', hloop, hload', hends, hkept', hshown⟩ := ih n (x + 1) w (by omega) (by omega)
            (by omega) hwload hwcur (by omega) hmore hput
          exact ⟨v', (loop_again hturn).trans hloop, hload', hends, hwkept.trans hkept', hshown⟩

/-- `render_row` goes to where the row ends, and the screen shows the row. -/
theorem renderRow_ends (hcr : ∀ i < d.total, d.bytes i ≠ carriageReturn) (hload : Loaded d v)
    (hle : v.cur ≤ d.total) :
    ∃ v', renderRow d v = some v' ∧ Loaded d v' ∧ RowEnds d v.cur v'.cur ∧ Kept v v' ∧
      Drawn d v.cur v v' := by
  have hnone : DrawnTo d v.cur 0 v v :=
    ⟨rfl, fun y hy => absurd hy (Nat.not_lt_zero y), fun _ _ => rfl⟩
  obtain ⟨v', hloop, hrest⟩ := rowLoop_ends hcr v v.cur 40 16777217 0 v rfl (by decide) (by decide)
    hload rfl hle (fun i hi => absurd hi (Nat.not_lt_zero i)) hnone
  refine ⟨v', ?_, hrest⟩
  unfold renderRow
  rw [hloop]
  rfl

end Rows

/-! ## The rows of the document -/

section Starts

variable {d : Doc} {v : Viewer}

/-- The rows that going forward from the beginning comes to, by their number: row `n` begins at a byte of
the document. -/
inductive RowAt (d : Doc) : Nat → Nat → Prop where
  | first : RowAt d 0 0
  | next {n : Nat} {v v' : Viewer} (h : RowAt d n v.cur) (hload : Loaded d v)
      (hrow : renderRow d v = some v') (hin : v'.cur < d.total) : RowAt d (n + 1) v'.cur

/-- A line begins at the beginning, and behind every line feed. -/
def LineStart (d : Doc) (p : Nat) : Prop :=
  p = 0 ∨ (0 < p ∧ d.bytes (p - 1) = lineFeed)

/-- No line has more than `n` bytes. -/
def LinesShort (d : Doc) (n : Nat) : Prop :=
  ∀ p k, LineStart d p → p + k ≤ d.total → Plain d p k → k ≤ n

/-- A row that begins at `r` begins a multiple of forty into its line, and at no line feed but the
line's own. -/
structure InLine (d : Doc) (line k r : Nat) : Prop where
  starts : LineStart d line
  place : r = line + vwCols * k
  plain : Plain d line (vwCols * k)
  inner : 0 < k → r < d.total → d.bytes r ≠ lineFeed

theorem Plain.append {p m n : Nat} (h : Plain d p m) (h' : Plain d (p + m) n) : Plain d p (m + n) := by
  intro i hi
  by_cases hlt : i < m
  · exact h i hlt
  · have hrest := h' (i - m) (by omega)
    have hplace : p + m + (i - m) = p + i := by
      omega
    rwa [hplace] at hrest

theorem lineStart_behind {p : Nat} (hfeed : d.bytes p = lineFeed) : LineStart d (p + 1) :=
  Or.inr ⟨Nat.succ_pos p, hfeed⟩

/-- A row after a row. -/
theorem InLine.step {line k p r : Nat} (h : InLine d line k p) (hends : RowEnds d p r)
    (hin : r < d.total) : ∃ line k, InLine d line k r := by
  cases hends with
  | feed hj hplain hlt hfeed =>
      exact ⟨_, 0, lineStart_behind hfeed, rfl, fun i hi => absurd hi (Nat.not_lt_zero i),
        fun hpos => absurd hpos (Nat.lt_irrefl 0)⟩
  | wrapFeed hplain hlt hfeed =>
      exact ⟨_, 0, lineStart_behind hfeed, rfl, fun i hi => absurd hi (Nat.not_lt_zero i),
        fun hpos => absurd hpos (Nat.lt_irrefl 0)⟩
  | wrap hplain hlt hfeed =>
      have hplace := h.place
      refine ⟨line, k + 1, h.starts, ?_, ?_, fun _ _ => hfeed⟩
      · rw [hplace, Nat.mul_succ, Nat.add_assoc]
      · rw [Nat.mul_succ]
        rw [hplace] at hplain
        exact h.plain.append hplain
  | eof hj hplain hend =>
      exact absurd hin (by omega)

theorem RowAt.inLine (hcr : ∀ i < d.total, d.bytes i ≠ carriageReturn) {n r : Nat}
    (h : RowAt d n r) : r ≤ d.total ∧ ∃ line k, InLine d line k r := by
  induction h with
  | first =>
      exact ⟨Nat.zero_le _, 0, 0, Or.inl rfl, rfl, fun i hi => absurd hi (Nat.not_lt_zero i),
        fun hpos => absurd hpos (Nat.lt_irrefl 0)⟩
  | next h hload hrow hin ih =>
      obtain ⟨hle, line, k, hline⟩ := ih
      obtain ⟨u, hu, -, hends, -⟩ := renderRow_ends hcr hload hle
      rw [hrow] at hu
      cases hu
      exact ⟨hin.le, hline.step hends hin⟩

theorem RowEnds.lt {p r : Nat} (h : RowEnds d p r) (hin : r < d.total) : p < r := by
  have hcols : vwCols = 40 := rfl
  cases h with
  | feed hj hplain hlt hfeed => omega
  | wrapFeed hplain hlt hfeed => omega
  | wrap hplain hlt hfeed => omega
  | eof hj hplain hend => omega

theorem Plain.le {p m j : Nat} (h : Plain d p m) (hfeed : d.bytes (p + j) = lineFeed) : m ≤ j :=
  Nat.le_of_not_lt fun hlt => h j hlt hfeed

theorem RowEnds.le {p r : Nat} (h : RowEnds d p r) : r ≤ d.total := by
  cases h with
  | feed hj hplain hlt hfeed => exact hlt
  | wrapFeed hplain hlt hfeed => exact hlt
  | wrap hplain hlt hfeed => exact hlt.le
  | eof hj hplain hend => exact hend.le

/-- A row ends in one place. -/
theorem RowEnds.unique {p r r' : Nat} (h : RowEnds d p r) (h' : RowEnds d p r') : r = r' := by
  cases h with
  | feed hj hplain hlt hfeed =>
      cases h' with
      | feed hj' hplain' hlt' hfeed' =>
          have h₁ := hplain.le hfeed'
          have h₂ := hplain'.le hfeed
          omega
      | wrapFeed hplain' hlt' hfeed' => exact absurd (hplain'.le hfeed) (by omega)
      | wrap hplain' hlt' hfeed' => exact absurd (hplain'.le hfeed) (by omega)
      | eof hj' hplain' hend' => exact absurd (hplain'.le hfeed) (by omega)
  | wrapFeed hplain hlt hfeed =>
      cases h' with
      | feed hj' hplain' hlt' hfeed' => exact absurd (hplain.le hfeed') (by omega)
      | wrapFeed hplain' hlt' hfeed' => rfl
      | wrap hplain' hlt' hfeed' => exact absurd hfeed hfeed'
      | eof hj' hplain' hend' => exact absurd hend' (by omega)
  | wrap hplain hlt hfeed =>
      cases h' with
      | feed hj' hplain' hlt' hfeed' => exact absurd (hplain.le hfeed') (by omega)
      | wrapFeed hplain' hlt' hfeed' => exact absurd hfeed' hfeed
      | wrap hplain' hlt' hfeed' => rfl
      | eof hj' hplain' hend' => exact absurd hend' (by omega)
  | eof hj hplain hend =>
      cases h' with
      | feed hj' hplain' hlt' hfeed' => exact absurd (hplain.le hfeed') (by omega)
      | wrapFeed hplain' hlt' hfeed' => exact absurd hend (by omega)
      | wrap hplain' hlt' hfeed' => exact absurd hend (by omega)
      | eof hj' hplain' hend' => exact hend.trans hend'.symm

theorem rowAt_unique (hcr : ∀ i < d.total, d.bytes i ≠ carriageReturn) {n : Nat} :
    ∀ {r r' : Nat}, RowAt d n r → RowAt d n r' → r = r' := by
  induction n with
  | zero =>
      intro r r' h h'
      cases h
      cases h'
      rfl
  | succ n ih =>
      intro r r' h h'
      cases h with
      | next h hload hrow hin =>
          cases h' with
          | next h' hload' hrow' hin' =>
              obtain ⟨u, hu, -, hends, -⟩ := renderRow_ends hcr hload (h.inLine hcr).1
              obtain ⟨u', hu', -, hends', -⟩ := renderRow_ends hcr hload' (h'.inLine hcr).1
              rw [hrow] at hu
              rw [hrow'] at hu'
              cases hu
              cases hu'
              rw [ih h' h] at hends'
              exact hends.unique hends'

/-- The document has a row `n`. -/
def HasRow (d : Doc) (n : Nat) : Prop :=
  ∃ r, RowAt d n r

/-- What an entry of the table says: where row `n` begins, or that there is none. -/
def Entry (d : Doc) (n r : Nat) : Prop :=
  RowAt d n r ∨ (r = d.total ∧ ¬ HasRow d n)

theorem HasRow.pred {n : Nat} (h : HasRow d (n + 1)) : HasRow d n := by
  rcases h with ⟨r, hr⟩
  cases hr with
  | next h hload hrow hin => exact ⟨_, h⟩

/-- From an entry to the one behind it. -/
theorem Entry.step (hcr : ∀ i < d.total, d.bytes i ≠ carriageReturn) {n : Nat} (hload : Loaded d v)
    (h : Entry d n v.cur) :
    ∃ v', renderRow d v = some v' ∧ Loaded d v' ∧ Entry d (n + 1) v'.cur ∧ Kept v v' ∧
      Drawn d v.cur v v' := by
  have hle : v.cur ≤ d.total := by
    rcases h with hrow | ⟨hend, -⟩
    · exact (hrow.inLine hcr).1
    · exact hend.le
  obtain ⟨v', hrow, hload', hends, hkept, hdrawn⟩ := renderRow_ends hcr hload hle
  refine ⟨v', hrow, hload', ?_, hkept, hdrawn⟩
  rcases h with hat | ⟨hend, hno⟩
  · by_cases hin : v'.cur < d.total
    · exact Or.inl (.next hat hload hrow hin)
    · -- the last row: any other that is behind it would end where it does
      refine Or.inr ⟨Nat.le_antisymm hends.le (Nat.le_of_not_lt hin), fun hmore => ?_⟩
      rcases hmore with ⟨r, hr⟩
      cases hr with
      | next h' hload' hrow' hin' =>
          obtain ⟨u, hu, -, hends', -⟩ := renderRow_ends hcr hload' (h'.inLine hcr).1
          rw [hrow'] at hu
          cases hu
          rw [rowAt_unique hcr h' hat] at hends'
          exact hin (by rw [hends.unique hends']; exact hin')
  · refine Or.inr ⟨?_, fun hmore => hno hmore.pred⟩
    rw [hend] at hends
    exact (hends.unique (.eof (Nat.zero_le _) (fun i hi => absurd hi (Nat.not_lt_zero i)) rfl))

theorem Entry.unique (hcr : ∀ i < d.total, d.bytes i ≠ carriageReturn) {n r r' : Nat}
    (h : Entry d n r) (h' : Entry d n r') : r = r' := by
  rcases h with hrow | ⟨hend, hno⟩
  · rcases h' with hrow' | ⟨-, hno'⟩
    · exact rowAt_unique hcr hrow hrow'
    · exact absurd ⟨r, hrow⟩ hno'
  · rcases h' with hrow' | ⟨hend', -⟩
    · exact absurd ⟨r', hrow'⟩ hno
    · exact hend.trans hend'.symm

end Starts

/-! ## The distance to the line feed -/

section Scan

variable {buf : Buffer}

/-- Nothing but other bytes down to place `i`. -/
theorem scanBack_found {i : Nat} (hfeed : buf i = lineFeed) :
    ∀ (n c : Nat), c + n < 65536 → (∀ k < n, buf (i + 1 + k) ≠ lineFeed) →
      scanBack buf (i + n) c = .found (c + n) := by
  intro n
  induction n with
  | zero =>
      intro c _ _
      cases i with
      | zero => exact if_pos hfeed
      | succ i => exact if_pos hfeed
  | succ n ih =>
      intro c hc hplain
      have hhere : buf (i + n + 1) ≠ lineFeed := by
        have hlast := hplain n (Nat.lt_succ_self n)
        rwa [Nat.add_right_comm] at hlast
      have hstep : scanBack buf (i + (n + 1)) c = scanBack buf (i + n) (inc16 c) := if_neg hhere
      rw [hstep, inc16_of_lt (by omega), ih (c + 1) (by omega) fun k hk => hplain k (by omega)]
      congr 1
      omega

theorem scanBack_floor :
    ∀ (n c : Nat), c + n < 65536 → (∀ k ≤ n, buf k ≠ lineFeed) → scanBack buf n c = .floor (c + n) := by
  intro n
  induction n with
  | zero =>
      intro c _ hplain
      exact if_neg (hplain 0 (Nat.le_refl 0))
  | succ n ih =>
      intro c hc hplain
      have hstep : scanBack buf (n + 1) c = scanBack buf n (inc16 c) :=
        if_neg (hplain (n + 1) (Nat.le_refl _))
      rw [hstep, inc16_of_lt (by omega), ih (c + 1) (by omega) fun k hk => hplain k (by omega)]
      congr 1
      omega

theorem modLoop_eq (m : Nat) : modLoop m = m % 40 := by
  induction m using modLoop.induct with
  | case1 m hlt =>
      rw [modLoop, if_pos hlt, Nat.mod_eq_of_lt hlt]
  | case2 m hge ih =>
      rw [modLoop, if_neg hge, ih, ← Nat.mod_eq_sub_mod (Nat.le_of_not_lt hge)]

end Scan

/-! ## Going back comes to the row before -/

section Back

variable {d : Doc} {w : Viewer}

/-- `scroll_up_one` behind its window: the window reaches 1,024 bytes back, or to the beginning, and
holds the document. -/
theorem scrollUpOne_window (hload : Loaded d w) (hpos : 0 < w.top) (hlt : w.top < d.total) :
    ∃ u : Viewer, u.top = w.top ∧ u.win = w.top - vwWinBack ∧ u.cnt = w.top - u.win ∧
      (∀ i < vwWinSize, u.win + i < d.total → u.buf i = d.bytes (u.win + i)) ∧
      scrollUpOne d w = scrollUpFrom u := by
  have hdoc := d.total_lt
  have hback : vwWinBack = 1024 := rfl
  have hreq : Loaded d { w with req := w.top } := ⟨hload.bytes, hload.win_lt⟩
  obtain ⟨hloaded, hok, hwin, -, hkept⟩ := ensureWindow_spec hreq (show w.top < 16777216 by omega)
  have hgoes : scrollUpOne d w = scrollUpFrom (idxTop (ensureWindow d { w with req := w.top })) :=
    if_neg (Nat.pos_iff_ne_zero.1 hpos)
  have htop := hkept.top
  dsimp only at hwin htop
  generalize ensureWindow d { w with req := w.top } = u at hloaded hok hwin htop hgoes
  have hwinle : u.win = w.top - vwWinBack := by
    rw [hwin]
    split <;> omega
  refine ⟨idxTop u, htop, hwinle, ?_, ?_, hgoes⟩
  · show sub16 u.top u.win = w.top - u.win
    rw [htop, sub16_of_near (by omega) (by omega)]
  · intro i hi hin
    have hin' : u.win + i < d.total := hin
    have hbyte := hloaded.bytes hok i hi
    rwa [Nat.mod_eq_of_lt (Nat.lt_trans hin' hdoc)] at hbyte

/-- Behind a line of `n` bytes and its line feed, `scroll_up_one` goes to the line's last row. -/
theorem scrollUpOne_behind (hload : Loaded d w) {line n : Nat} (hstart : LineStart d line)
    (hplain : Plain d line n) (hfeed : d.bytes (line + n) = lineFeed) (htop : w.top = line + n + 1)
    (hlt : w.top < d.total) (hn : n ≤ 1022) :
    (scrollUpOne d w).top = if n = 0 then line else line + n - ((n - 1) % 40 + 1) := by
  have hdoc := d.total_lt
  have hback : vwWinBack = 1024 := rfl
  have hsize : vwWinSize = 3584 := rfl
  obtain ⟨u, hutop, hwin, hcnt, hbytes, hgoes⟩ := scrollUpOne_window hload (by omega) hlt
  have hbehind : u.buf (sub16 u.cnt 1) = lineFeed := by
    rw [sub16_of_le (by omega) (by omega), hbytes _ (by omega) (by omega),
      show u.win + (u.cnt - 1) = line + n by omega]
    exact hfeed
  rw [hgoes]
  unfold scrollUpFrom
  rw [if_neg (not_not.2 hbehind)]
  by_cases hfew : u.cnt < 2
  · -- the first line is empty
    rw [if_pos hfew, if_pos (show n = 0 by omega)]
    exact (show line = 0 by omega).symm
  rw [if_neg hfew, sub16_of_le (by omega) (by omega)]
  have hcount : (n - 1) % 40 < 40 := Nat.mod_lt _ (by decide)
  rcases hstart with hzero | ⟨hpos, hbefore⟩
  · -- the scan comes to the beginning of the document
    have hfloor : scanBack u.buf (u.cnt - 2) 0 = .floor (0 + (u.cnt - 2)) := by
      refine scanBack_floor _ 0 (by omega) fun k hk => ?_
      rw [hbytes k (by omega) (by omega), show u.win + k = line + k by omega]
      exact hplain k (by omega)
    rw [hfloor, topScanned, if_pos (show u.win = 0 by omega), if_neg (show n ≠ 0 by omega), Nat.zero_add,
      show u.cnt - 2 = n - 1 by omega]
    show sub24 u.top (modLoop (n - 1) + 2) = _
    rw [modLoop_eq, hutop, htop]
    unfold sub24
    omega
  · -- the scan comes to the line feed before the line
    have hplace : u.cnt - 2 = line - 1 - u.win + n := by
      omega
    have hfound : scanBack u.buf (u.cnt - 2) 0 = .found (0 + n) := by
      rw [hplace]
      refine scanBack_found ?_ n 0 (by omega) fun k hk => ?_
      · rw [hbytes _ (by omega) (by omega), show u.win + (line - 1 - u.win) = line - 1 by omega]
        exact hbefore
      · rw [hbytes _ (by omega) (by omega),
          show u.win + (line - 1 - u.win + 1 + k) = line + k by omega]
        exact hplain k hk
    rw [hfound, Nat.zero_add, topScanned]
    by_cases hempty : n = 0
    · rw [if_pos hempty, if_pos hempty]
      show sub24 u.top 1 = line
      rw [hutop, htop]
      unfold sub24
      omega
    · rw [if_neg hempty, if_neg hempty]
      show sub24 u.top (modLoop (n - 1) + 2) = _
      rw [modLoop_eq, hutop, htop]
      unfold sub24
      omega

/-- Inside a line it goes forty bytes back. -/
theorem scrollUpOne_inside (hload : Loaded d w) {p : Nat} (hplain : Plain d p vwCols)
    (htop : w.top = p + vwCols) (hlt : w.top < d.total) : (scrollUpOne d w).top = p := by
  have hdoc := d.total_lt
  have hback : vwWinBack = 1024 := rfl
  have hsize : vwWinSize = 3584 := rfl
  have hcols : vwCols = 40 := rfl
  obtain ⟨u, hutop, hwin, hcnt, hbytes, hgoes⟩ := scrollUpOne_window hload (by omega) hlt
  have hbehind : u.buf (sub16 u.cnt 1) ≠ lineFeed := by
    rw [sub16_of_le (by omega) (by omega), hbytes _ (by omega) (by omega),
      show u.win + (u.cnt - 1) = p + 39 by omega]
    exact hplain 39 (by omega)
  rw [hgoes]
  unfold scrollUpFrom topSub40
  rw [if_pos hbehind, if_neg (show ¬ u.top < 40 by omega)]
  show sub24 u.top 40 = p
  rw [hutop, htop]
  unfold sub24
  omega

/-- From the row behind a row, back to that row. -/
theorem scrollUpOne_ends (hshort : LinesShort d 1022) (hload : Loaded d w) {line k p : Nat}
    (hline : InLine d line k p) (hends : RowEnds d p w.top) (hlt : w.top < d.total) :
    (scrollUpOne d w).top = p := by
  have hcols : vwCols = 40 := rfl
  have hplace := hline.place
  -- a row of `j` columns that its line feed follows
  have hbehind : ∀ j ≤ vwCols, Plain d p j → p + j < d.total → d.bytes (p + j) = lineFeed →
      w.top = p + j + 1 → (scrollUpOne d w).top = p := by
    intro j hj hplain hin hfeed htop
    have hwhole : Plain d line (vwCols * k + j) := by
      rw [hplace] at hplain
      exact hline.plain.append hplain
    have hn := hshort line (vwCols * k + j) hline.starts (by omega) hwhole
    have hrow : 0 < k → 0 < j := by
      intro hk
      refine Nat.pos_of_ne_zero fun hzero => ?_
      subst hzero
      exact hline.inner hk (by omega) hfeed
    rw [scrollUpOne_behind hload hline.starts hwhole (by rw [← Nat.add_assoc, ← hplace]; exact hfeed)
      (by omega) hlt hn]
    split
    · omega
    · rename_i hnonempty
      have hjpos : 0 < j := by
        rcases Nat.eq_zero_or_pos k with hk | hk
        · rw [hk, Nat.mul_zero] at hnonempty
          omega
        · exact hrow hk
      have hmod : (vwCols * k + j - 1) % 40 = j - 1 := by
        rw [hcols] at hj ⊢
        omega
      rw [hmod]
      generalize vwCols * k = q at hplace ⊢
      omega
  generalize htop : w.top = r at hends hlt hbehind
  cases hends with
  | feed hj hplain hin hfeed => exact hbehind _ hj.le hplain hin hfeed rfl
  | wrapFeed hplain hin hfeed => exact hbehind _ (Nat.le_refl _) hplain hin hfeed rfl
  | wrap hplain hin hfeed => exact scrollUpOne_inside hload hplain htop (by omega)
  | eof hj hplain hend => exact absurd hlt (by omega)

/-- **Scrolling up undoes scrolling down**: of a document without carriage returns whose lines have at most
1,022 bytes, every row but the first is left for the row before it, whatever window is loaded. -/
theorem scrollUpOne_preceding (hcr : ∀ i < d.total, d.bytes i ≠ carriageReturn)
    (hshort : LinesShort d 1022) {n r : Nat} (hr : RowAt d n r) (hpos : 0 < r) :
    ∃ m p, n = m + 1 ∧ RowAt d m p ∧ p < r ∧
      ∀ w, Loaded d w → w.top = r → (scrollUpOne d w).top = p := by
  cases hr with
  | first => exact absurd hpos (Nat.lt_irrefl 0)
  | @next m v v' h hload hrow hin =>
      obtain ⟨hle, line, k, hline⟩ := h.inLine hcr
      obtain ⟨u, hu, -, hends, -⟩ := renderRow_ends hcr hload hle
      rw [hrow] at hu
      cases hu
      refine ⟨m, v.cur, rfl, h, hends.lt hin, fun w hw htop => ?_⟩
      rw [← htop] at hends hin
      exact scrollUpOne_ends hshort hw hline hends hin

/-- Two lines of one byte. -/
def twoLines : Doc where
  bytes := fun i => if i = 1 then lineFeed else 0x61
  total := 3
  total_lt := by decide

theorem twoLines_cr : ∀ i < twoLines.total, twoLines.bytes i ≠ carriageReturn := by
  decide

theorem twoLines_short : LinesShort twoLines 1022 := by
  intro p k _ hin _
  have htotal : twoLines.total = 3 := rfl
  omega

def atStart : Viewer where
  top := 0
  win := 0
  wok := false
  cur := 0
  req := 0
  tmp := 0
  cnt := 0
  buf := fun _ => 0
  rowBase := contentRow0
  screen := fun _ => 0x20
  tbl := fun _ => 0

theorem twoLines_second : RowAt twoLines 1 2 := by
  have hload : Loaded twoLines atStart := ⟨fun hok => absurd hok Bool.false_ne_true, by decide⟩
  obtain ⟨v', hrow, -, hends, -⟩ := renderRow_ends twoLines_cr hload (Nat.zero_le _)
  have hplain : Plain twoLines 0 1 := by
    unfold Plain
    decide
  have hfeed : RowEnds twoLines 0 (0 + 1 + 1) := .feed (by decide) hplain (by decide) (by decide)
  have htwo : v'.cur = 2 := hends.unique hfeed
  rw [← htwo]
  exact .next .first hload hrow (by rw [htwo]; decide)

theorem scrollUpOne_preceding_twoLines :
    ∃ m p, 1 = m + 1 ∧ RowAt twoLines m p ∧ p < 2 ∧
      ∀ w, Loaded twoLines w → w.top = 2 → (scrollUpOne twoLines w).top = p :=
  scrollUpOne_preceding twoLines_cr twoLines_short twoLines_second (by decide)

end Back

/-! ## The viewer as a row number -/

section Session

variable {d : Doc} {v : Viewer}

/-- Nothing but the cursor and the table is different. -/
theorem Loaded.record (h : Loaded d v) (i : Nat) : Loaded d (recordRow i v) :=
  ⟨h.bytes, h.win_lt⟩

/-- Row `i` of the screen, below the status row, shows the row of the document from `p` on. -/
def ScreenRow (d : Doc) (v : Viewer) (i p : Nat) : Prop :=
  ∀ x < vwCols, v.screen (contentRow0 + vwCols * i + x) = rowChar d p x

theorem recordRow_tbl_self (i : Nat) (v : Viewer) : (recordRow i v).tbl i = v.cur := by
  simp only [recordRow, Function.update_self]

theorem recordRow_tbl_ne {i j : Nat} (v : Viewer) (h : j ≠ i) : (recordRow i v).tbl j = v.tbl j := by
  simp only [recordRow, Function.update_of_ne h]

/-- The first `i` rows of the screen are recorded and drawn. -/
structure Laid (d : Doc) (n i : Nat) (v : Viewer) : Prop where
  entry : ∀ j < i, Entry d (n + j) (v.tbl j)
  row : ∀ j < i, ScreenRow d v j (v.tbl j)

/-- One row more, below those that are there. -/
theorem Laid.draw {n i : Nat} {u : Viewer} (h : Laid d n i v) (hentry : Entry d (n + i) v.cur)
    (hbase : v.rowBase = contentRow0 + vwCols * i) (hkept : Kept (recordRow i v) u)
    (hdrawn : Drawn d v.cur (recordRow i v) u) : Laid d n (i + 1) u := by
  have hcols : vwCols = 40 := rfl
  refine ⟨fun j hj => ?_, fun j hj x hx => ?_⟩
  · rw [hkept.tbl]
    by_cases hlast : j = i
    · rw [hlast, recordRow_tbl_self]
      exact hentry
    · rw [recordRow_tbl_ne v hlast]
      exact h.entry j (by omega)
  · rw [hkept.tbl]
    by_cases hlast : j = i
    · rw [hlast, recordRow_tbl_self, ← hbase]
      exact hdrawn.row x hx
    · -- the columns of an earlier row lie in front of this one
      have hout : contentRow0 + vwCols * j + x < (recordRow i v).rowBase := by
        show _ < v.rowBase
        rw [hbase, hcols]
        omega
      rw [recordRow_tbl_ne v hlast, hdrawn.rest _ (Or.inl hout)]
      exact h.row j (by omega) x hx

/-- The rows from `i` on go to the screen and to the table, and the one behind the screen to the
table. -/
theorem renderRows_entries (hcr : ∀ i < d.total, d.bytes i ≠ carriageReturn) {n : Nat} (k : Nat) :
    ∀ (i : Nat) (v : Viewer), i + k = vwRows → Loaded d v → Entry d (n + i) v.cur →
      v.rowBase = contentRow0 + vwCols * i → Laid d n i v →
        ∃ v', renderRows d k v = some v' ∧ Loaded d v' ∧ v'.top = v.top ∧
          (∀ j ≤ vwRows, Entry d (n + j) (v'.tbl j)) ∧ ∀ j < vwRows, ScreenRow d v' j (v'.tbl j) := by
  induction k with
  | zero =>
      intro i v hi hload hentry _ hlaid
      obtain rfl : i = vwRows := hi
      refine ⟨_, rfl, hload.record vwRows, rfl, fun j hj => ?_, fun j hj => ?_⟩
      · rcases Nat.eq_or_lt_of_le hj with rfl | hlt
        · rw [recordRow_tbl_self]
          exact hentry
        · rw [recordRow_tbl_ne v hlt.ne]
          exact hlaid.entry j hlt
      · rw [recordRow_tbl_ne v hj.ne]
        exact hlaid.row j hj
  | succ k ih =>
      intro i v hi hload hentry hbase hlaid
      have hplace : vwRows - (k + 1) = i := by
        omega
      obtain ⟨u, hrow, hload', hnext, hkept, hdrawn⟩ := Entry.step hcr (hload.record i) hentry
      have hlaid' := hlaid.draw hentry hbase hkept hdrawn
      -- the place of the next row, which does not wrap within the screen
      have hbase' : (nextBase u).rowBase = contentRow0 + vwCols * (i + 1) := by
        have hfirst : contentRow0 = 1064 := rfl
        have hcols : vwCols = 40 := rfl
        have hrows : vwRows = 24 := rfl
        have hplaced : u.rowBase = contentRow0 + vwCols * i := hdrawn.rowBase.trans hbase
        show add16 u.rowBase vwCols = _
        rw [hplaced, hcols, Nat.mul_succ, ← Nat.add_assoc, add16_of_lt (by omega)]
      obtain ⟨v', hrows, hload'', htop, hentries⟩ := ih (i + 1) (nextBase u) (by omega)
        ⟨hload'.bytes, hload'.win_lt⟩ hnext hbase' ⟨hlaid'.entry, hlaid'.row⟩
      refine ⟨v', ?_, hload'', htop.trans hkept.top, hentries⟩
      rw [renderRows, hplace, hrow, Option.bind_some]
      exact hrows

/-- The screen shows the rows from row `n` on, and the table says where they begin. -/
structure Shows (d : Doc) (n : Nat) (v : Viewer) : Prop where
  loaded : Loaded d v
  top : RowAt d n v.top
  entries : 0 < d.total → ∀ j ≤ vwRows, Entry d (n + j) (v.tbl j)
  rows : ∀ i < vwRows, ∀ p, Entry d (n + i) p → ScreenRow d v i p

/-- An empty screen shows the document without bytes. -/
theorem clearScreen_row (hempty : d.total = 0) {i : Nat} (hi : i < vwRows) (p : Nat) :
    ScreenRow d (clearScreen v) i p := by
  intro x hx
  have hfirst : contentRow0 = 1064 := rfl
  have hbase : screenBase = 1024 := rfl
  have hcols : vwCols = 40 := rfl
  have hrows : vwRows = 24 := rfl
  have hblank : rowChar d p x = 0x20 := if_neg fun hin => absurd hin.1 (by omega)
  rw [hblank, hcols]
  rw [hcols] at hx
  exact if_pos (by omega)

theorem renderCore_shows (hcr : ∀ i < d.total, d.bytes i ≠ carriageReturn) {n : Nat}
    (hload : Loaded d v) (htop : RowAt d n v.top) :
    ∃ v', renderCore d v = some v' ∧ Shows d n v' := by
  unfold renderCore
  by_cases hempty : d.total = 0
  · rw [if_pos hempty]
    exact ⟨_, rfl, ⟨hload.bytes, hload.win_lt⟩, htop, fun hpos => absurd hempty hpos.ne',
      fun i hi p _ => clearScreen_row hempty hi p⟩
  · rw [if_neg hempty]
    have hdoc := d.total_lt
    have hle := (htop.inLine hcr).1
    have hreq : Loaded d { v with cur := v.top, req := v.top } := ⟨hload.bytes, hload.win_lt⟩
    obtain ⟨hloaded, -, -, hcur, hkept⟩ :=
      ensureWindow_spec hreq (show v.top < 16777216 from Nat.lt_of_le_of_lt hle hdoc)
    generalize ensureWindow d { v with cur := v.top, req := v.top } = u at hloaded hcur hkept ⊢
    have hentry : Entry d (n + 0) u.cur := Or.inl (by rw [hcur]; exact htop)
    obtain ⟨v', hrows, hload', htop', hentries, hscreen⟩ := renderRows_entries hcr vwRows 0
      { u with rowBase := contentRow0 } (Nat.zero_add _) ⟨hloaded.bytes, hloaded.win_lt⟩ hentry rfl
      ⟨fun j hj => absurd hj (Nat.not_lt_zero j), fun j hj => absurd hj (Nat.not_lt_zero j)⟩
    refine ⟨v', hrows, hload', ?_, fun _ => hentries, fun i hi p hp => ?_⟩
    · rw [htop']
      show RowAt d n u.top
      rw [hkept.top]
      exact htop
    · rw [hp.unique hcr (hentries i hi.le)]
      exact hscreen i hi

open Classical in
/-- What a key does to the number of the first row on the screen. -/
noncomputable def movedRow (d : Doc) (k : ViewerKey) (n : Nat) : Nat :=
  match k with
  | .down => if HasRow d (n + 1) then n + 1 else n
  | .up => n - 1
  | .pgdn => if HasRow d (n + vwRows) then n + vwRows else n
  | .pgup => n - vwRows
  | .home => 0

/-- The number of the first row, over what `getin` delivers. -/
noncomputable def shownRow (d : Doc) : List UInt8 → Nat → Nat
  | [], n => n
  | a :: as, n =>
      match keyDo a with
      | .again => shownRow d as n
      | .quit => n
      | .move k => shownRow d as (movedRow d k n)

open Classical in
theorem takeTblEntry_row {n i : Nat} (h : Shows d n v) (hi : i ≤ vwRows) (hpos : 0 < i) :
    Loaded d (takeTblEntry d i v) ∧
      RowAt d (if HasRow d (n + i) then n + i else n) (takeTblEntry d i v).top := by
  unfold takeTblEntry
  by_cases hempty : d.total = 0
  · -- a document without bytes has one row
    have hnone : ¬ HasRow d (n + i) := by
      rintro ⟨r, hr⟩
      obtain ⟨m, hm⟩ : ∃ m, n + i = m + 1 := ⟨n + i - 1, by omega⟩
      rw [hm] at hr
      cases hr with
      | next h' hload' hrow' hin' => exact absurd hin' (by omega)
    rw [if_pos (show d.total ≤ v.tbl i by omega), if_neg hnone]
    exact ⟨h.loaded, h.top⟩
  · rcases h.entries (Nat.pos_of_ne_zero hempty) i hi with hrow | ⟨hend, hno⟩
    · have hin : v.tbl i < d.total := by
        obtain ⟨m, hm⟩ : ∃ m, n + i = m + 1 := ⟨n + i - 1, by omega⟩
        rw [hm] at hrow
        generalize v.tbl i = r at hrow
        cases hrow with
        | next h' hload' hrow' hin' => exact hin'
      rw [if_neg (Nat.not_le_of_lt hin), if_pos ⟨_, hrow⟩]
      exact ⟨⟨h.loaded.bytes, h.loaded.win_lt⟩, hrow⟩
    · rw [if_pos hend.ge, if_neg hno]
      exact ⟨h.loaded, h.top⟩

theorem RowAt.pos (hcr : ∀ i < d.total, d.bytes i ≠ carriageReturn) {n r : Nat}
    (h : RowAt d (n + 1) r) : 0 < r := by
  cases h with
  | next h hload hrow hin =>
      obtain ⟨u, hu, -, hends, -⟩ := renderRow_ends hcr hload (h.inLine hcr).1
      rw [hrow] at hu
      cases hu
      exact Nat.zero_lt_of_lt (hends.lt hin)

theorem Loaded.withTop (h : Loaded d v) (t m : Nat) : Loaded d { v with top := t, tmp := m } :=
  ⟨h.bytes, h.win_lt⟩

theorem topSub40_loaded (h : Loaded d v) : Loaded d (topSub40 v) := by
  unfold topSub40
  split
  · exact h.withTop 0 v.tmp
  · exact h.withTop (sub24 v.top 40) v.tmp

theorem topBack_loaded (h : Loaded d v) (m : Nat) : Loaded d (topBack v m) :=
  h.withTop (sub24 v.top (modLoop m + 2)) (modLoop m + 2)

theorem topScanned_loaded (h : Loaded d v) (ends : ScanEnd) : Loaded d (topScanned v ends) := by
  cases ends with
  | floor c =>
      rw [topScanned]
      split
      · exact topBack_loaded h c
      · exact topSub40_loaded h
  | found c =>
      rw [topScanned]
      split
      · exact h.withTop (sub24 v.top 1) v.tmp
      · exact topBack_loaded h (c - 1)

theorem scrollUpFrom_loaded (h : Loaded d v) : Loaded d (scrollUpFrom v) := by
  unfold scrollUpFrom
  split
  · exact topSub40_loaded h
  split
  · exact h.withTop 0 v.tmp
  · exact topScanned_loaded h _

/-- Only the top and the scratch are written behind the window. -/
theorem scrollUpOne_loaded (h : Loaded d v) (htop : v.top < 16777216) : Loaded d (scrollUpOne d v) := by
  have hreq : Loaded d { v with req := v.top } := ⟨h.bytes, h.win_lt⟩
  have hloaded := (ensureWindow_spec hreq htop).1
  unfold scrollUpOne
  split
  · exact h
  · exact scrollUpFrom_loaded ⟨hloaded.bytes, hloaded.win_lt⟩

/-- One row up, also from the first row. -/
theorem scrollUpOne_row (hcr : ∀ i < d.total, d.bytes i ≠ carriageReturn) (hshort : LinesShort d 1022)
    {n : Nat} (hload : Loaded d v) (h : RowAt d n v.top) :
    Loaded d (scrollUpOne d v) ∧ RowAt d (n - 1) (scrollUpOne d v).top := by
  have hlt : v.top < 16777216 := Nat.lt_of_le_of_lt (h.inLine hcr).1 d.total_lt
  refine ⟨scrollUpOne_loaded hload hlt, ?_⟩
  by_cases hpos : 0 < v.top
  · obtain ⟨m, p, hn, hp, -, hback⟩ := scrollUpOne_preceding hcr hshort h hpos
    rw [hback v hload rfl, hn]
    exact hp
  · have hstay : scrollUpOne d v = v := if_pos (Nat.eq_zero_of_not_pos hpos)
    rw [hstay]
    cases n with
    | zero => exact h
    | succ n => exact absurd (h.pos hcr) hpos

theorem scrollUpOne_rows (hcr : ∀ i < d.total, d.bytes i ≠ carriageReturn) (hshort : LinesShort d 1022)
    {n : Nat} (hload : Loaded d v) (h : RowAt d n v.top) (k : Nat) :
    Loaded d ((scrollUpOne d)^[k] v) ∧ RowAt d (n - k) ((scrollUpOne d)^[k] v).top := by
  induction k with
  | zero => exact ⟨hload, h⟩
  | succ k ih =>
      rw [Function.iterate_succ_apply', Nat.sub_add_eq]
      exact scrollUpOne_row hcr hshort ih.1 ih.2

/-- What a key does. -/
theorem moveTop_row (hcr : ∀ i < d.total, d.bytes i ≠ carriageReturn) (hshort : LinesShort d 1022)
    {n : Nat} (h : Shows d n v) (k : ViewerKey) :
    Loaded d (moveTop d k v) ∧ RowAt d (movedRow d k n) (moveTop d k v).top := by
  cases k with
  | down => exact takeTblEntry_row h (by decide) Nat.one_pos
  | up => exact scrollUpOne_row hcr hshort h.loaded h.top
  | pgdn => exact takeTblEntry_row h (Nat.le_refl _) (by decide)
  | pgup => exact scrollUpOne_rows hcr hshort h.loaded h.top vwRows
  | home => exact ⟨⟨h.loaded.bytes, h.loaded.win_lt⟩, .first⟩

theorem viewerKeys_shows (hcr : ∀ i < d.total, d.bytes i ≠ carriageReturn) (hshort : LinesShort d 1022)
    (as : List UInt8) : ∀ (n : Nat) (v : Viewer), Shows d n v →
      ∃ v', viewerKeys d as v = some v' ∧ Shows d (shownRow d as n) v' := by
  induction as with
  | nil =>
      intro n v h
      exact ⟨v, rfl, h⟩
  | cons a as ih =>
      intro n v h
      unfold viewerKeys shownRow
      cases keyDo a with
      | again => exact ih n v h
      | quit => exact ⟨v, rfl, h⟩
      | move k =>
          obtain ⟨hload, hrow⟩ := moveTop_row hcr hshort h k
          obtain ⟨u, hcore, hshows⟩ := renderCore_shows hcr hload hrow
          dsimp only
          rw [hcore, Option.bind_some]
          exact ih _ u hshows

/-- **The viewer is a row number**: of a document without carriage returns whose lines have at most 1,022
bytes, over every sequence of keys and whatever is in the window before, the screen shows the characters
of the rows from the one on that the keys count to. -/
theorem viewerEnter_row (hcr : ∀ i < d.total, d.bytes i ≠ carriageReturn) (hshort : LinesShort d 1022)
    (hwin : v.win < 16777216) (as : List UInt8) :
    ∃ v', viewerEnter d as v = some v' ∧ RowAt d (shownRow d as 0) v'.top ∧ ScreenRow d v' 0 v'.top ∧
      ∀ i < vwRows, ∀ p, Entry d (shownRow d as 0 + i) p → ScreenRow d v' i p := by
  have hload : Loaded d (topZero { v with wok := false }) :=
    ⟨fun hok => absurd hok Bool.false_ne_true, hwin⟩
  obtain ⟨u, hcore, hshows⟩ := renderCore_shows hcr hload .first
  obtain ⟨v', hkeys, hshown⟩ := viewerKeys_shows hcr hshort as 0 u hshows
  refine ⟨v', ?_, hshown.top, hshown.rows 0 (by decide) _ (Or.inl hshown.top), hshown.rows⟩
  unfold viewerEnter
  rw [hcore, Option.bind_some]
  exact hkeys

theorem viewerEnter_row_twoLines :
    ∃ v', viewerEnter twoLines [0x11, 0x91, 0x51] atStart = some v' ∧
      RowAt twoLines (shownRow twoLines [0x11, 0x91, 0x51] 0) v'.top ∧ ScreenRow twoLines v' 0 v'.top ∧
        ∀ i < vwRows, ∀ p, Entry twoLines (shownRow twoLines [0x11, 0x91, 0x51] 0 + i) p →
          ScreenRow twoLines v' i p :=
  viewerEnter_row twoLines_cr twoLines_short (by decide) _

end Session

end Ui
end C64Https
