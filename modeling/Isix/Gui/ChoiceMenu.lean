import Isix.Lib.Runs

/-!
# Isix.Gui.ChoiceMenu

The menu of libgfx (`gui/choice_menu.cpp`): a table of items, the current one,
and the part of the table that is on the display.
-/

namespace Isix.Gui

/-- `rectangle`, in coordinates of the display. -/
structure Rectangle where
  x : Nat
  y : Nat
  cx : Nat
  cy : Nat

/-- `rectangle::inside` -/
def Rectangle.inside (r : Rectangle) (x y : Nat) : Bool :=
  decide (r.x ≤ x ∧ x ≤ r.x + r.cx ∧ r.y ≤ y ∧ y ≤ r.y + r.cy)

namespace ChoiceMenu

open Runs

/-- `choice_menu`; of the items the numbers in front of the end mark, and none
when `m_items` is `nullptr`. -/
structure Menu where
  coord : Rectangle
  select : Bool
  maxBoxItems : Int
  items : Option (List Int) := none
  currItem : Int := 0
  selItem : Int := 0
  numItems : Int := 0

inductive Key where
  | arrowUp
  | arrowDown
  | enter
  | other
  deriving DecidableEq

inductive Touch where
  | pressDown
  | move
  | other
  deriving DecidableEq

inductive Event where
  | key (down : Bool) (key : Key)
  | touch (id : Touch) (x y : Nat) (dy : Int)
  | other

/-- `++m_curr_item == m_num_items`; the flag is `ret`. -/
def down (m : Menu) : Menu × Bool :=
  if m.currItem + 1 = m.numItems then (m, false) else ({ m with currItem := m.currItem + 1 }, true)

/-- `--m_curr_item < 0` -/
def up (m : Menu) : Menu × Bool :=
  if m.currItem - 1 < 0 then ({ m with currItem := 0 }, false) else ({ m with currItem := m.currItem - 1 }, true)

/-- A click, whose handler returns `ret`. -/
def click (ret : Bool) (m : Menu) : Menu × Bool :=
  (if m.select then { m with selItem := m.currItem } else m, ret)

/-- `choice_menu::report_event`; `ret` is what `emit` returns for a click. -/
def reportEvent (ret : Bool) (m : Menu) : Event → Menu × Bool
  | .key true .arrowDown => down m
  | .key true .arrowUp => up m
  | .key true .enter => click ret m
  | .key _ _ => (m, false)
  | .touch id x y dy =>
    let mid := m.coord.x + m.coord.cx / 2
    if m.coord.inside x y = false then (m, false)
    else if id = .pressDown ∧ x < mid then click ret m
    else if id = .move ∧ mid < x then
      if dy < -10 then up m else if 10 < dy then down m else (m, false)
    else (m, false)
  | .other => (m, false)

/-- The number of items in front of the end mark. -/
def count (l : Option (List Int)) : Nat := ((l.getD []).takeWhile (· ≠ 0)).length

/-- `choice_menu::items` -/
def setItems (l : Option (List Int)) (m : Menu) : Menu := { m with items := l, numItems := count l }

/-- `choice_menu::selection` -/
def selection (sel : Int) (m : Menu) : Menu :=
  if m.select then { m with selItem := sel } else { m with currItem := sel }

/-- `choice_menu::selection_item` -/
def selectionItem (sel : Int) (m : Menu) : Menu :=
  match (List.range m.numItems.toNat).find? fun n => (m.items.getD [])[n]? = some sel with
  | some n => selection n m
  | none => m

/-- The first item in the box. -/
def first (m : Menu) : Int :=
  let boxpos := if m.maxBoxItems - 1 < m.currItem then m.maxBoxItems - 1 else m.currItem
  if 0 < m.currItem - boxpos then m.currItem - boxpos else 0

/-- The items `choice_menu::repaint` reads and draws, from the top of the box. -/
def shown (m : Menu) : List Int :=
  if m.items.isNone then [] else
    (List.range (min m.maxBoxItems m.numItems).toNat).map fun c : Nat => first m + c

inductive Op where
  | items (l : Option (List Int))
  | event (e : Event) (ret : Bool)
  | selectionItem (sel : Int)

def exec (m : Menu) : Op → Menu
  | .items l => setItems l m
  | .event e ret => (reportEvent ret m e).1
  | .selectionItem sel => selectionItem sel m

def Step (op : Op) (m m' : Menu) : Prop := exec m op = m'

/-- **Condition on the calls**: a new table is empty or has the items that are
current and selected, and no events come while it is empty. -/
def Careful (op : Op) (m : Menu) : Prop :=
  match op with
  | .items l => count l = 0 ∨ m.currItem < count l ∧ m.selItem < count l
  | .event _ _ => 0 < m.numItems
  | .selectionItem _ => True

/-- The indices refer to items. -/
structure Sound (m : Menu) : Prop where
  box : 1 ≤ m.maxBoxItems
  num : m.numItems = count m.items
  curr : 0 ≤ m.currItem ∧ (0 < m.numItems → m.currItem < m.numItems)
  sel : 0 ≤ m.selItem ∧ (0 < m.numItems → m.selItem < m.numItems)

variable {m m' : Menu}

theorem Sound.event (h : Sound m) (hpos : 0 < m.numItems) (e : Event) (ret : Bool) :
    Sound (reportEvent ret m e).1 := by
  obtain ⟨hbox, hnum, hcurr, hsel⟩ := h
  have hdown : Sound (down m).1 := by
    unfold down
    split
    · exact ⟨hbox, hnum, hcurr, hsel⟩
    · constructor <;> simp_all
      omega
  have hup : Sound (up m).1 := by
    unfold up
    split <;> constructor <;> simp_all
    omega
  have hclick : Sound (click ret m).1 := by
    unfold click
    split <;> constructor <;> simp_all
  have hsame : Sound m := ⟨hbox, hnum, hcurr, hsel⟩
  unfold reportEvent
  simp only
  repeat' split
  all_goals assumption

theorem Sound.step (op : Op) (h : Sound m) (hc : Careful op m) (hs : Step op m m') : Sound m' := by
  subst hs
  cases op with
  | items l =>
    obtain ⟨hbox, -, hcurr, hsel⟩ := h
    constructor <;> simp_all [exec, setItems, Careful] <;> omega
  | event e ret => exact h.event hc e ret
  | selectionItem sel =>
    show Sound (ChoiceMenu.selectionItem sel m)
    unfold ChoiceMenu.selectionItem
    split
    next n hn =>
      have hlt := List.mem_range.mp (List.mem_of_find?_eq_some hn)
      obtain ⟨hbox, hnum, hcurr, hsel⟩ := h
      unfold selection
      split <;> constructor <;> simp_all
    · exact h

/-- The box is a part of the table with the current item in it. -/
theorem Sound.shown (h : Sound m) (hpos : 0 < m.numItems) :
    (∀ i ∈ shown m, 0 ≤ i ∧ i < m.numItems) ∧ (shown m).length = min m.maxBoxItems m.numItems ∧
      m.currItem ∈ shown m := by
  obtain ⟨hbox, hnum, hcurr, -⟩ := h
  have hlt := hcurr.2 hpos
  have hsome : m.items.isNone = false := by
    rw [hnum] at hpos
    cases hi : m.items with
    | none => simp [hi, count] at hpos
    | some l => rfl
  have hfirst : 0 ≤ first m ∧ first m ≤ m.currItem ∧ m.currItem < first m + min m.maxBoxItems m.numItems ∧
      first m + min m.maxBoxItems m.numItems ≤ m.numItems := by
    unfold first
    grind
  unfold ChoiceMenu.shown
  rw [hsome]
  simp only [List.mem_map, List.mem_range, List.length_map, List.length_range, Bool.false_eq_true, if_false]
  refine ⟨?_, by omega, (m.currItem - first m).toNat, by omega, by omega⟩
  rintro i ⟨c, hc, rfl⟩
  omega

/-- **The selection refers to an item**: with such calls and a box for at least
one item, whenever there are items the current and the selected one are among
them, and the box shows as many items as fit, the current one with them. -/
theorem menu_in_range (coord : Rectangle) (select : Bool) (box : Int) (hbox : 1 ≤ box)
    (hrun : Run (Meeting Step Careful) { coord, select, maxBoxItems := box } m) (hpos : 0 < m.numItems) :
    (0 ≤ m.currItem ∧ m.currItem < m.numItems) ∧ (0 ≤ m.selItem ∧ m.selItem < m.numItems) ∧
      (∀ i ∈ shown m, 0 ≤ i ∧ i < m.numItems) ∧ (shown m).length = min m.maxBoxItems m.numItems ∧
      m.currItem ∈ shown m := by
  have h : Sound m := hrun.keeps (fun op _ _ h hs => h.step op hs.2 hs.1) ⟨hbox, rfl, by simp, by simp⟩
  exact ⟨⟨h.curr.1, h.curr.2 hpos⟩, ⟨h.sel.1, h.sel.2 hpos⟩, h.shown hpos⟩

/-- A table of three items, and one step down in it. -/
theorem menu_in_range_of_three : ∃ m, Run (Meeting Step Careful) ⟨⟨0, 0, 9, 9⟩, true, 2, none, 0, 0, 0⟩ m ∧
    m.currItem = 1 ∧ m.currItem ∈ shown m := by
  have hitems : Run (Meeting Step Careful) ⟨⟨0, 0, 9, 9⟩, true, 2, none, 0, 0, 0⟩ _ :=
    .one (e := .items (some [5, 6, 7])) ⟨rfl, .inr (by decide)⟩
  have hdown := hitems.step (e := Op.event (.key true .arrowDown) false) ⟨rfl, show (0 : Int) < 3 by decide⟩
  exact ⟨_, hdown, rfl, (menu_in_range _ _ 2 (by decide) hdown (by decide)).2.2.2.2⟩

/-- The table becomes shorter: the current item and the one that is drawn are
behind its end. -/
theorem menu_of_shorter_table : ∃ m, Run Step ⟨⟨0, 0, 9, 9⟩, false, 2, none, 0, 0, 0⟩ m ∧ m.numItems = 1 ∧
    m.currItem = 2 ∧ shown m = [1] :=
  ⟨_, (((Run.one (e := .items (some [5, 6, 7])) rfl).step (e := .event (.key true .arrowDown) false) rfl).step
    (e := .event (.key true .arrowDown) false) rfl).step (e := .items (some [5])) rfl, rfl, rfl, by decide⟩

end ChoiceMenu

end Isix.Gui
