import Nyx.Lib.Ordering

/-! The windows of the desktop (`kernel/compositor.c`): how they come and go, which has the focus,
in which order `redraw_all` paints them and a click looks through them.

Coordinates are C's 32-bit integers; an id is an integer, since `next_id` must not overflow. What
the windows draw, titles, callbacks and the geometry to restore are left out. -/
namespace Nyx.Compositor
open Lib

abbrev maxWindows : Nat := 32
def titleH : BitVec 32 := 22#32
def taskbarH : BitVec 32 := 36#32
def minWinW : BitVec 32 := 120#32
def minWinH : BitVec 32 := 80#32
def designW : BitVec 32 := 1024#32
def designH : BitVec 32 := 768#32
def scaleOne : BitVec 32 := 65536#32

inductive WState
  | normal
  | minimized
  | maximized
  | snapLeft
  | snapRight
  | snapTl
  | snapTr
  | snapBl
  | snapBr
deriving DecidableEq, Repr

structure Window where
  x : BitVec 32
  y : BitVec 32
  w : BitVec 32
  h : BitVec 32
  zOrder : Int
  visible : Bool
  state : WState
  focused : Bool
  id : Int
  workspace : BitVec 32
deriving DecidableEq, Repr

abbrev Slot := Fin maxWindows

structure Desktop where
  windows : Slot → Option Window
  windowCount : Int
  nextId : Int
  focusedId : Int
  currentWorkspace : BitVec 32
  fbWidth : BitVec 32
  fbHeight : BitVec 32

/-- The desktop that `compositor_init` leaves. -/
def Desktop.init (fbWidth fbHeight : BitVec 32) : Desktop :=
  ⟨fun _ => none, 0, 100, 0, 0#32, fbWidth, fbHeight⟩

/-! ### Geometry -/

def scaleI (v s : BitVec 32) : BitVec 32 := BitVec.ofInt 32 ((v.toInt * s.toInt + 32768) / 65536)

def scaleU (v s : BitVec 32) : BitVec 32 := BitVec.ofNat 32 ((v.toNat * s.toNat + 32768) / 65536)

/-- A click at a point meets the window, title bar included. -/
def windowHit (win : Window) (mx my : BitVec 32) : Bool :=
  win.x.sle mx && mx.slt (win.x + win.w) && win.y.sle my && my.slt (win.y + (win.h + titleH))

namespace Desktop

variable (s : Desktop) (i : Slot)

def designScale : BitVec 32 :=
  let sx := s.fbWidth * scaleOne / designW
  let sy := s.fbHeight * scaleOne / designH
  let scale := if sx < sy then sx else sy
  if scaleOne < scale then scaleOne else scale

/-- The size is capped first, then the window is moved back inside. -/
def windowClamp (win : Window) : Window :=
  let fw := s.fbWidth
  let fh := s.fbHeight
  let usableH := fh - taskbarH - titleH
  let w := if fw.slt win.w then fw else win.w
  let h := if usableH.slt win.h && (0#32).slt usableH then usableH else win.h
  let x := if fw.slt (win.x + w) then fw - w else win.x
  let y := if (fh - taskbarH).slt (win.y + h + titleH) then fh - taskbarH - h - titleH else win.y
  let x := if x.slt 0#32 then 0#32 else x
  let y := if y.slt 0#32 then 0#32 else y
  {win with x, y, w, h}

/-! ### Focus -/

/-- `find_window`, as the slot of the window. -/
def findWindow (id : Int) : Option Slot :=
  (List.finRange maxWindows).find? fun i => (s.windows i).any fun win => win.id == id

def up (win : Window) : Bool := win.visible && win.state != .minimized

def windowFocus (id : Int) : Desktop :=
  match s.findWindow id with
  | none => s
  | some slot =>
    if (s.windows slot).any up then
      { s with
        windows := fun i => (s.windows i).map fun win =>
          if i = slot then {win with focused := true, zOrder := s.windowCount + 10}
          else if win.id = id then win
          else {win with focused := false}
        focusedId := id }
    else s

def shown : Bool := (s.windows i).any fun win => up win && win.workspace == s.currentWorkspace

/-- The windows on the screen in slot order, as every loop over the table collects them. -/
def displayed : List Slot := (List.finRange maxWindows).filter s.shown

def zOf : Int := ((s.windows i).map Window.zOrder).getD 0

/-- The choice of `focus_next_window`: the first of the highest windows. -/
def highest : Option Slot :=
  s.displayed.foldl (fun best i =>
    match best with
    | none => some i
    | some b => if s.zOf b < s.zOf i then some i else best) none

def idOf : Int := ((s.windows i).map Window.id).getD 0

def focusNextWindow : Desktop :=
  match s.highest with
  | some best => s.windowFocus (s.idOf best)
  | none => {s with focusedId := 0}

/-! ### Creation and destruction -/

/-- The window that `window_create` fills in. -/
def newWindow (x y w h : BitVec 32) : Window :=
  let scale := s.designScale
  let shrunk := scale < scaleOne
  let w := if shrunk then scaleU w scale else w
  let h := if shrunk then scaleU h scale else h
  let x := if shrunk then scaleI x scale else x
  let y := if shrunk then scaleI y scale else y
  s.windowClamp
    { x, y
      w := if w < minWinW then minWinW else w
      h := if h < minWinH then minWinH else h
      zOrder := s.windowCount
      visible := true
      state := .normal
      focused := false
      id := s.nextId
      workspace := s.currentWorkspace }

/-- `window_create` up to its `window_focus`: `none` if there is no room for another window or no
memory for it (`granted`). -/
def place (x y w h : BitVec 32) (granted : Bool) : Option Desktop :=
  if (maxWindows : Int) ≤ s.windowCount then none
  else
    match (List.finRange maxWindows).find? fun i => (s.windows i).isNone with
    | none => none
    | some slot =>
      if granted then
        some { s with
          windows := Function.update s.windows slot (s.newWindow x y w h)
          windowCount := s.windowCount + 1
          nextId := s.nextId + 1 }
      else none

def windowCreate (x y w h : BitVec 32) (granted : Bool) : Desktop :=
  match s.place x y w h granted with
  | some s' => s'.windowFocus s.nextId
  | none => s

/-- `window_destroy` up to its `focus_next_window`. -/
def remove (id : Int) : Option Desktop :=
  (s.findWindow id).map fun slot =>
    {s with windows := Function.update s.windows slot none, windowCount := s.windowCount - 1}

def windowDestroy (id : Int) : Desktop :=
  match s.remove id with
  | none => s
  | some s' => if s.focusedId = id then s'.focusNextWindow else s'

/-! ### Painting and clicking -/

/-- The order in which `redraw_all` paints: each window over those before it. -/
def drawOrder : List Slot := insertUp s.zOf s.displayed

def clickOrder : List Slot := exchangeDown s.zOf s.displayed

def hitAt (mx my : BitVec 32) (i : Slot) : Bool := (s.windows i).any fun win => windowHit win mx my

end Desktop

end Nyx.Compositor
