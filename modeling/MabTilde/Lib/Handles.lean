import Mathlib.Data.Finset.Basic
import Mathlib.Data.List.Nodup
import Mathlib.Logic.Function.Basic

/-!
Handles kept in the slots of an object, and what becomes of them.

A table knows which handles are open, and which ones it was told to close when
they were not. An owner assigns handles to its slots, over whatever was there,
and closes what its slots say when it is told to; the slots stay as they are.
So a handle may be lost, and a slot may go on naming a handle that is closed.
`Record` follows both from the uses alone, without looking at a handle; if
nothing is lost and no slot is stale, closing closes every open handle once
(`Tracks.closesOnce`). Conversely, as long as no handle is issued that another
slot still names, nothing else will do (`Exact.settled`).
-/

namespace Handles

variable {S H : Type}

structure Table (H : Type) where
  opened : Finset H
  /-- Those that were to be closed when they were not open. -/
  refused : List H

namespace Table

variable [DecidableEq H]

def empty : Table H := ⟨∅, []⟩

def issue (t : Table H) (h : H) : Table H := { t with opened := insert h t.opened }

def close (t : Table H) (h : H) : Table H :=
  if h ∈ t.opened then { t with opened := t.opened.erase h }
  else { t with refused := t.refused ++ [h] }

def closeList (t : Table H) (hs : List H) : Table H := hs.foldl close t

section Lemmas

variable {t : Table H} {h x : H} {hs : List H}

theorem mem_opened_close : x ∈ (t.close h).opened ↔ x ∈ t.opened ∧ x ≠ h := by
  unfold close
  split
  · exact Finset.mem_erase.trans and_comm
  · rename_i hh
    refine ⟨fun hx => ⟨hx, ?_⟩, And.left⟩
    rintro rfl
    exact hh hx

theorem mem_opened_closeList : x ∈ (t.closeList hs).opened ↔ x ∈ t.opened ∧ x ∉ hs := by
  induction hs generalizing t with
  | nil => simp [closeList]
  | cons h hs ih =>
      show x ∈ ((t.close h).closeList hs).opened ↔ _
      rw [ih, mem_opened_close, List.mem_cons, not_or, and_assoc]

theorem length_refused_closeList :
    t.refused.length ≤ (t.closeList hs).refused.length := by
  induction hs generalizing t with
  | nil => exact le_refl _
  | cons h hs ih =>
      have hclose : t.refused.length ≤ (t.close h).refused.length := by
        unfold close
        split
        · exact le_refl _
        · simp
      exact hclose.trans ih

/-- Nothing is refused exactly if the handles are open and each comes once. -/
theorem refused_closeList_iff :
    (t.closeList hs).refused = t.refused ↔ hs.Nodup ∧ ∀ h ∈ hs, h ∈ t.opened := by
  induction hs generalizing t with
  | nil => simp [closeList]
  | cons h hs ih =>
      show ((t.close h).closeList hs).refused = _ ↔ _
      by_cases hh : h ∈ t.opened
      · have hrefused : (t.close h).refused = t.refused := by
          rw [close, if_pos hh]
        rw [← hrefused, ih, List.nodup_cons]
        refine ⟨?_, ?_⟩
        · rintro ⟨hnodup, hmem⟩
          refine ⟨⟨fun hin => (mem_opened_close.mp (hmem h hin)).2 rfl, hnodup⟩, ?_⟩
          intro x hx
          rcases List.mem_cons.mp hx with rfl | hx
          · exact hh
          · exact (mem_opened_close.mp (hmem x hx)).1
        · rintro ⟨⟨hnot, hnodup⟩, hmem⟩
          refine ⟨hnodup, fun x hx => mem_opened_close.mpr ⟨hmem x (.tail h hx), ?_⟩⟩
          rintro rfl
          exact hnot hx
      · have hrefused : (t.close h).refused = t.refused ++ [h] := by
          rw [close, if_neg hh]
        refine iff_of_false ?_ fun hall => hh (hall.2 h List.mem_cons_self)
        intro heq
        have hle : (t.close h).refused.length ≤ ((t.close h).closeList hs).refused.length :=
          length_refused_closeList
        rw [heq, hrefused, List.length_append, List.length_singleton] at hle
        omega

theorem close_issue (hh : h ∉ t.opened) : (t.issue h).close h = t := by
  have hmem : h ∈ (t.issue h).opened := Finset.mem_insert_self h t.opened
  rw [close, if_pos hmem]
  show Table.mk ((insert h t.opened).erase h) t.refused = t
  rw [Finset.erase_insert hh]

end Lemmas

end Table

/-! ### Owners -/

structure Owner (S H : Type) where
  slot : S → Option H
  table : Table H

inductive Use (S H : Type)
  /-- A slot gets what was opened for it, if anything was; it may have been
  closed again since. -/
  | assign (x : S) (handle : Option H) (kept : Bool)
  /-- Close what the slots say. -/
  | closeAll

namespace Owner

def init : Owner S H := ⟨fun _ => none, Table.empty⟩

/-- The handles the slots say, in the order in which they are closed. -/
def handles (order : List S) (o : Owner S H) : List H := order.filterMap o.slot

theorem mem_handles {order : List S} {o : Owner S H} {h : H} (hall : ∀ x, x ∈ order) :
    h ∈ o.handles order ↔ ∃ x, o.slot x = some h := by
  refine List.mem_filterMap.trans ⟨?_, ?_⟩
  · rintro ⟨x, -, hx⟩
    exact ⟨x, hx⟩
  · rintro ⟨x, hx⟩
    exact ⟨x, hall x, hx⟩

def apply [DecidableEq S] [DecidableEq H] (order : List S) (o : Owner S H) : Use S H → Owner S H
  | .assign x none _ => { o with slot := Function.update o.slot x none }
  | .assign x (some h) kept =>
      ⟨Function.update o.slot x (some h),
        if kept then o.table.issue h else (o.table.issue h).close h⟩
  | .closeAll => { o with table := o.table.closeList (o.handles order) }

end Owner

/-- What a slot stands for, as the uses so far tell. -/
inductive Standing
  | nothing
  | held
  | closed
  deriving DecidableEq

/-- The standing of the slots, and whether an open handle has been lost. -/
structure Record (S : Type) where
  standing : S → Standing
  lost : Bool

namespace Record

def init : Record S := ⟨fun _ => .nothing, false⟩

def after [DecidableEq S] (r : Record S) : Use S H → Record S
  | .assign x handle kept =>
      ⟨Function.update r.standing x (match handle with
          | none => .nothing
          | some _ => if kept then .held else .closed),
        r.lost || decide (r.standing x = .held)⟩
  | .closeAll =>
      { r with standing := fun x => if r.standing x = .held then .closed else r.standing x }

/-- All open handles are held and all handles that are named are open. -/
def Settled (r : Record S) : Prop := r.lost = false ∧ ∀ x, r.standing x ≠ .closed

end Record

def Use.handle : Use S H → Option H
  | .assign _ handle _ => handle
  | .closeAll => none

def Use.Allowed (u : Use S H) (t : Table H) : Prop := ∀ h, u.handle = some h → h ∉ t.opened

/-- The record is right about the handles that are held, and misses none that is
not lost. -/
structure Tracks (r : Record S) (o : Owner S H) : Prop where
  nothing : ∀ x, r.standing x = .nothing → o.slot x = none
  held : ∀ x, r.standing x = .held → ∃ h, o.slot x = some h ∧ h ∈ o.table.opened
  apart : ∀ x y h, r.standing x = .held → r.standing y = .held → o.slot x = some h →
    o.slot y = some h → x = y
  owned : r.lost = false → ∀ h ∈ o.table.opened, ∃ x, r.standing x = .held ∧ o.slot x = some h

variable {r : Record S} {o : Owner S H} {order : List S} {u : Use S H} {h : H} {x : S}

theorem Tracks.init : Tracks Record.init (Owner.init : Owner S H) where
  nothing := fun _ _ => rfl
  held := fun _ h => nomatch h
  apart := fun _ _ _ h => nomatch h
  owned := fun _ _ h => absurd h (Finset.notMem_empty _)

variable [DecidableEq S]

theorem update_eq_iff_of_ne {α : Type} {f : S → α} {y : S} {v w : α} (hne : v ≠ w) :
    Function.update f x v y = w ↔ y ≠ x ∧ f y = w := by
  by_cases hyx : y = x
  · subst hyx
    rw [Function.update_self]
    exact iff_of_false hne fun h => h.1 rfl
  · rw [Function.update_of_ne hyx, and_iff_right hyx]

theorem Tracks.drop (ht : Tracks r o) (x : S) :
    Tracks ⟨Function.update r.standing x .nothing, r.lost || decide (r.standing x = .held)⟩
      { o with slot := Function.update o.slot x none } := by
  have hstanding : ∀ y, Function.update r.standing x .nothing y = .held ↔
      y ≠ x ∧ r.standing y = .held := fun y => update_eq_iff_of_ne nofun
  have hslot : ∀ y h, Function.update o.slot x none y = some h ↔ y ≠ x ∧ o.slot y = some h :=
    fun y h => update_eq_iff_of_ne nofun
  refine ⟨?_, ?_, ?_, ?_⟩
  · intro y hy
    dsimp only at hy ⊢
    by_cases hyx : y = x
    · subst hyx
      exact Function.update_self _ _ _
    · rw [Function.update_of_ne hyx] at hy ⊢
      exact ht.nothing y hy
  · intro y hy
    obtain ⟨hyx, hy⟩ := (hstanding y).mp hy
    obtain ⟨h, hyh, hopen⟩ := ht.held y hy
    exact ⟨h, (hslot y h).mpr ⟨hyx, hyh⟩, hopen⟩
  · intro y z h hy hz hyh hzh
    exact ht.apart y z h ((hstanding y).mp hy).2 ((hstanding z).mp hz).2 ((hslot y h).mp hyh).2
      ((hslot z h).mp hzh).2
  · intro hlost h hh
    obtain ⟨hlost, hx⟩ := Bool.or_eq_false_iff.mp hlost
    obtain ⟨y, hy, hyh⟩ := ht.owned hlost h hh
    have hyx : y ≠ x := by
      rintro rfl
      exact of_decide_eq_false hx hy
    exact ⟨y, (hstanding y).mpr ⟨hyx, hy⟩, (hslot y h).mpr ⟨hyx, hyh⟩⟩

/-- An empty slot gets a handle, open from now on or closed again. -/
theorem Tracks.name {t : Table H} {st : Standing} (ht : Tracks r o)
    (hx : r.standing x = .nothing) (hh : h ∉ o.table.opened) (hst : st ≠ .nothing)
    (hopened : ∀ g, g ∈ t.opened ↔ g ∈ o.table.opened ∨ g = h ∧ st = .held) :
    Tracks { r with standing := Function.update r.standing x st }
      ⟨Function.update o.slot x (some h), t⟩ := by
  have hof : ∀ y g, y ≠ x → Function.update r.standing x st y = .held →
      Function.update o.slot x (some h) y = some g →
        r.standing y = .held ∧ o.slot y = some g ∧ g ∈ o.table.opened := by
    intro y g hyx hy hyg
    rw [Function.update_of_ne hyx] at hy hyg
    obtain ⟨g', hg', hopen⟩ := ht.held y hy
    obtain rfl : g' = g := Option.some.inj (hg'.symm.trans hyg)
    exact ⟨hy, hg', hopen⟩
  refine ⟨?_, ?_, ?_, ?_⟩
  · intro y hy
    obtain ⟨hyx, hy⟩ := (update_eq_iff_of_ne hst).mp hy
    have hslot : Function.update o.slot x (some h) y = none ↔ y ≠ x ∧ o.slot y = none :=
      update_eq_iff_of_ne nofun
    exact hslot.mpr ⟨hyx, ht.nothing y hy⟩
  · intro y hy
    dsimp only at hy ⊢
    by_cases hyx : y = x
    · subst hyx
      rw [Function.update_self] at hy
      exact ⟨h, Function.update_self _ _ _, (hopened h).mpr (.inr ⟨rfl, hy⟩)⟩
    · rw [Function.update_of_ne hyx] at hy ⊢
      obtain ⟨g, hg, hopen⟩ := ht.held y hy
      exact ⟨g, hg, (hopened g).mpr (.inl hopen)⟩
  · intro y z g hy hz hyg hzg
    dsimp only at hy hz hyg hzg
    by_cases hyx : y = x
    · by_cases hzx : z = x
      · exact hyx.trans hzx.symm
      · obtain ⟨-, -, hopen⟩ := hof z g hzx hz hzg
        rw [hyx, Function.update_self, Option.some.injEq] at hyg
        exact absurd (hyg ▸ hopen) hh
    · obtain ⟨hy, hyg, hopen⟩ := hof y g hyx hy hyg
      by_cases hzx : z = x
      · rw [hzx, Function.update_self, Option.some.injEq] at hzg
        exact absurd (hzg ▸ hopen) hh
      · obtain ⟨hz, hzg, -⟩ := hof z g hzx hz hzg
        exact ht.apart y z g hy hz hyg hzg
  · intro hlost g hg
    rcases (hopened g).mp hg with hg | ⟨rfl, rfl⟩
    · obtain ⟨y, hy, hyg⟩ := ht.owned hlost g hg
      have hyx : y ≠ x := by
        rintro rfl
        exact nomatch hx.symm.trans hy
      refine ⟨y, ?_, ?_⟩
      · exact (Function.update_of_ne hyx _ _).trans hy
      · exact (Function.update_of_ne hyx _ _).trans hyg
    · exact ⟨x, Function.update_self _ _ _, Function.update_self _ _ _⟩

variable [DecidableEq H]

theorem Table.opened_assign {t : Table H} (hh : h ∉ t.opened) (kept : Bool) (g : H) :
    g ∈ (if kept then t.issue h else (t.issue h).close h).opened ↔
      g ∈ t.opened ∨ g = h ∧ (if kept then Standing.held else .closed) = .held := by
  cases kept with
  | true =>
      show g ∈ insert h t.opened ↔ g ∈ t.opened ∨ g = h ∧ Standing.held = .held
      rw [Finset.mem_insert, and_iff_left rfl, or_comm]
  | false =>
      show g ∈ ((t.issue h).close h).opened ↔ g ∈ t.opened ∨ g = h ∧ Standing.closed = .held
      rw [close_issue hh]
      exact (or_iff_left fun hclosed => nomatch hclosed.2).symm

theorem Tracks.assign (ht : Tracks r o) (x : S) (handle : Option H) (kept : Bool)
    (hfresh : ∀ h, handle = some h → h ∉ o.table.opened) :
    Tracks (r.after (.assign x handle kept)) (o.apply order (.assign x handle kept)) := by
  have hdrop := ht.drop x
  cases handle with
  | none => exact hdrop
  | some h =>
      have hh := hfresh h rfl
      have hname := hdrop.name (Function.update_self _ _ _) hh
        (by cases kept <;> exact fun hst => nomatch hst) (Table.opened_assign hh kept)
      simp only [Function.update_idem] at hname
      exact hname

theorem Tracks.closeAll (ht : Tracks r o) (hall : ∀ x, x ∈ order) :
    Tracks (r.after (.closeAll : Use S H)) (o.apply order .closeAll) := by
  have hheld : ∀ y, (r.after (.closeAll : Use S H)).standing y ≠ .held := by
    intro y hy
    simp only [Record.after] at hy
    split at hy
    · cases hy
    · rename_i hne
      exact hne hy
  refine ⟨?_, ?_, ?_, ?_⟩
  · intro y hy
    simp only [Record.after] at hy
    split at hy
    · cases hy
    · exact ht.nothing y hy
  · exact fun y hy => absurd hy (hheld y)
  · exact fun y _ _ hy => absurd hy (hheld y)
  · intro hlost h hh
    obtain ⟨hopen, hnot⟩ := Table.mem_opened_closeList.mp hh
    obtain ⟨y, -, hy⟩ := ht.owned hlost h hopen
    exact absurd ((Owner.mem_handles hall).mpr ⟨y, hy⟩) hnot

theorem Tracks.apply (ht : Tracks r o) (hall : ∀ x, x ∈ order) (hu : u.Allowed o.table) :
    Tracks (r.after u) (o.apply order u) := by
  cases u with
  | assign x handle kept => exact ht.assign x handle kept hu
  | closeAll => exact ht.closeAll hall

/-- If nothing is lost and no slot is stale, closing what the slots say closes
all there is to close, once. -/
theorem Tracks.closesOnce (ht : Tracks r o) (hall : ∀ x, x ∈ order) (hnodup : order.Nodup)
    (hsettled : r.Settled) :
    (o.apply order .closeAll).table.refused = o.table.refused ∧
      (o.apply order .closeAll).table.opened = ∅ := by
  obtain ⟨hlost, hclosed⟩ := hsettled
  have hheld : ∀ x h, o.slot x = some h → r.standing x = .held := by
    intro x h hx
    cases hst : r.standing x with
    | nothing => exact nomatch (ht.nothing x hst).symm.trans hx
    | held => rfl
    | closed => exact absurd hst (hclosed x)
  refine ⟨Table.refused_closeList_iff.mpr ⟨?_, ?_⟩, ?_⟩
  · refine hnodup.filterMap ?_
    intro x y h hx hy
    exact ht.apart x y h (hheld x h hx) (hheld y h hy) hx hy
  · intro h hh
    obtain ⟨x, hx⟩ := (Owner.mem_handles hall).mp hh
    obtain ⟨h', hx', hopen⟩ := ht.held x (hheld x h hx)
    obtain rfl : h' = h := Option.some.inj (hx'.symm.trans hx)
    exact hopen
  · refine Finset.eq_empty_of_forall_notMem ?_
    intro h hh
    obtain ⟨hopen, hnot⟩ := Table.mem_opened_closeList.mp hh
    obtain ⟨x, -, hx⟩ := ht.owned hlost h hopen
    exact hnot ((Owner.mem_handles hall).mpr ⟨x, hx⟩)

/-! ### Conversely -/

def Use.Unnamed (u : Use S H) (o : Owner S H) : Prop :=
  ∀ x h kept, u = .assign x (some h) kept → ∀ y, y ≠ x → o.slot y ≠ some h

/-- What the record says is lost or closed is so, and no two slots say the same. -/
structure Exact (r : Record S) (o : Owner S H) : Prop where
  apart : ∀ x y h, o.slot x = some h → o.slot y = some h → x = y
  closed : ∀ x, r.standing x = .closed → ∃ h, o.slot x = some h ∧ h ∉ o.table.opened
  lost : r.lost = true → ∃ h ∈ o.table.opened, ∀ x, o.slot x ≠ some h

omit [DecidableEq S] [DecidableEq H] in
theorem Exact.init : Exact Record.init (Owner.init : Owner S H) where
  apart := fun _ _ _ h => nomatch h
  closed := fun _ h => nomatch h
  lost := fun h => nomatch h

omit [DecidableEq H] in
theorem Exact.drop (he : Exact r o) (ht : Tracks r o) (x : S) :
    Exact ⟨Function.update r.standing x .nothing, r.lost || decide (r.standing x = .held)⟩
      { o with slot := Function.update o.slot x none } := by
  have hslot : ∀ y h, Function.update o.slot x none y = some h ↔ y ≠ x ∧ o.slot y = some h :=
    fun y h => update_eq_iff_of_ne nofun
  have hstanding : ∀ y, Function.update r.standing x .nothing y = .closed ↔
      y ≠ x ∧ r.standing y = .closed := fun y => update_eq_iff_of_ne nofun
  refine ⟨?_, ?_, ?_⟩
  · exact fun y z h hy hz => he.apart y z h ((hslot y h).mp hy).2 ((hslot z h).mp hz).2
  · intro y hy
    obtain ⟨hyx, hy⟩ := (hstanding y).mp hy
    obtain ⟨h, hyh, hclosed⟩ := he.closed y hy
    exact ⟨h, (hslot y h).mpr ⟨hyx, hyh⟩, hclosed⟩
  · intro hlost
    by_cases hx : r.standing x = .held
    · -- what the slot held is open and has no other name
      obtain ⟨h, hxh, hopen⟩ := ht.held x hx
      refine ⟨h, hopen, fun y hy => ?_⟩
      obtain ⟨hyx, hyh⟩ := (hslot y h).mp hy
      exact hyx (he.apart y x h hyh hxh)
    · rw [Bool.or_eq_true, decide_eq_true_eq, or_iff_left hx] at hlost
      obtain ⟨h, hopen, hnone⟩ := he.lost hlost
      exact ⟨h, hopen, fun y hy => hnone y ((hslot y h).mp hy).2⟩

omit [DecidableEq H] in
theorem Exact.name {t : Table H} {st : Standing} (he : Exact r o) (hh : h ∉ o.table.opened)
    (hnew : ∀ y, y ≠ x → o.slot y ≠ some h)
    (hopened : ∀ g, g ∈ t.opened ↔ g ∈ o.table.opened ∨ g = h ∧ st = .held) :
    Exact { r with standing := Function.update r.standing x st }
      ⟨Function.update o.slot x (some h), t⟩ := by
  have hslot : ∀ y g, Function.update o.slot x (some h) y = some g →
      y = x ∧ g = h ∨ g ≠ h ∧ o.slot y = some g := by
    intro y g hy
    by_cases hyx : y = x
    · subst hyx
      rw [Function.update_self, Option.some.injEq] at hy
      exact .inl ⟨rfl, hy.symm⟩
    · rw [Function.update_of_ne hyx] at hy
      refine .inr ⟨?_, hy⟩
      rintro rfl
      exact hnew y hyx hy
  refine ⟨?_, ?_, ?_⟩
  · intro y z g hy hz
    rcases hslot y g hy with ⟨hyx, hg⟩ | ⟨hg, hyg⟩
    · rcases hslot z g hz with ⟨hzx, -⟩ | ⟨hg', -⟩
      · exact hyx.trans hzx.symm
      · exact absurd hg hg'
    · rcases hslot z g hz with ⟨-, hg'⟩ | ⟨-, hzg⟩
      · exact absurd hg' hg
      · exact he.apart y z g hyg hzg
  · intro y hy
    dsimp only at hy ⊢
    by_cases hyx : y = x
    · subst hyx
      rw [Function.update_self] at hy
      refine ⟨h, Function.update_self _ _ _, fun hopen => ?_⟩
      rcases (hopened h).mp hopen with hopen | ⟨-, hheld⟩
      · exact hh hopen
      · exact nomatch hy.symm.trans hheld
    · rw [Function.update_of_ne hyx] at hy ⊢
      obtain ⟨g, hg, hclosed⟩ := he.closed y hy
      refine ⟨g, hg, fun hopen => ?_⟩
      rcases (hopened g).mp hopen with hopen | ⟨rfl, -⟩
      · exact hclosed hopen
      · exact hnew y hyx hg
  · intro hlost
    obtain ⟨g, hopen, hnone⟩ := he.lost hlost
    refine ⟨g, (hopened g).mpr (.inl hopen), fun y hy => ?_⟩
    rcases hslot y g hy with ⟨-, rfl⟩ | ⟨-, hyg⟩
    · exact hh hopen
    · exact hnone y hyg

theorem Exact.assign (he : Exact r o) (ht : Tracks r o) (x : S) (handle : Option H)
    (kept : Bool) (hfresh : ∀ h, handle = some h → h ∉ o.table.opened)
    (hnew : ∀ h, handle = some h → ∀ y, y ≠ x → o.slot y ≠ some h) :
    Exact (r.after (.assign x handle kept)) (o.apply order (.assign x handle kept)) := by
  have hdrop := he.drop ht x
  cases handle with
  | none => exact hdrop
  | some h =>
      have hh := hfresh h rfl
      have hother : ∀ y, y ≠ x → Function.update o.slot x none y ≠ some h := by
        intro y hyx
        rw [Function.update_of_ne hyx]
        exact hnew h rfl y hyx
      have hname := hdrop.name hh hother (Table.opened_assign hh kept)
      simp only [Function.update_idem] at hname
      exact hname

theorem Exact.closeAll (he : Exact r o) (ht : Tracks r o) (hall : ∀ x, x ∈ order) :
    Exact (r.after (.closeAll : Use S H)) (o.apply order .closeAll) := by
  refine ⟨he.apart, ?_, ?_⟩
  · intro x hx
    have hnamed : ∃ h, o.slot x = some h := by
      simp only [Record.after] at hx
      split at hx
      · rename_i hheld
        obtain ⟨h, hxh, -⟩ := ht.held x hheld
        exact ⟨h, hxh⟩
      · obtain ⟨h, hxh, -⟩ := he.closed x hx
        exact ⟨h, hxh⟩
    obtain ⟨h, hxh⟩ := hnamed
    refine ⟨h, hxh, fun hopen => ?_⟩
    exact (Table.mem_opened_closeList.mp hopen).2 ((Owner.mem_handles hall).mpr ⟨x, hxh⟩)
  · intro hlost
    obtain ⟨h, hopen, hnone⟩ := he.lost hlost
    refine ⟨h, Table.mem_opened_closeList.mpr ⟨hopen, fun hin => ?_⟩, hnone⟩
    obtain ⟨x, hx⟩ := (Owner.mem_handles hall).mp hin
    exact hnone x hx

theorem Exact.apply (he : Exact r o) (ht : Tracks r o) (hall : ∀ x, x ∈ order)
    (hu : u.Allowed o.table) (hnew : u.Unnamed o) : Exact (r.after u) (o.apply order u) := by
  cases u with
  | assign x handle kept =>
      refine he.assign ht x handle kept hu fun h heq => hnew x h kept ?_
      rw [heq]
  | closeAll => exact he.closeAll ht hall

/-- If closing closes all there is to close, once, nothing was lost and no slot
was stale. -/
theorem Exact.settled (he : Exact r o) (hall : ∀ x, x ∈ order)
    (hrefused : (o.apply order .closeAll).table.refused = o.table.refused)
    (hopened : (o.apply order .closeAll).table.opened = ∅) : r.Settled := by
  obtain ⟨-, hmem⟩ := Table.refused_closeList_iff.mp hrefused
  refine ⟨?_, ?_⟩
  · rw [← Bool.not_eq_true]
    intro hlost
    obtain ⟨h, hopen, hnone⟩ := he.lost hlost
    have hstill : h ∈ (o.apply order .closeAll).table.opened := by
      refine Table.mem_opened_closeList.mpr ⟨hopen, fun hin => ?_⟩
      obtain ⟨x, hx⟩ := (Owner.mem_handles hall).mp hin
      exact hnone x hx
    rw [hopened] at hstill
    exact Finset.notMem_empty h hstill
  · intro x hx
    obtain ⟨h, hxh, hclosed⟩ := he.closed x hx
    exact hclosed (hmem h ((Owner.mem_handles hall).mpr ⟨x, hxh⟩))

end Handles
