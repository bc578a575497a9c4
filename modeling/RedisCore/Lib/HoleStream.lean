/-
# `RedisCore.Lib.HoleStream` — streams with parts that are written later

A writer may leave a hole in what it writes and fill it when it knows what belongs
there.  A stream is a list of symbols and named holes; `fill` puts symbols where a hole
is, and `flat` reads the stream with its open holes left out.
-/
import Mathlib.Data.List.Basic

namespace HoleStream

variable {α ι : Type}

/-- A symbol, or a hole. -/
inductive Atom (α ι : Type) where
  | sym (a : α)
  | hole (i : ι)

/-- A stream without holes. -/
def syms (as : List α) : List (Atom α ι) := as.map Atom.sym

/-- What the stream says so far. -/
def flat (l : List (Atom α ι)) : List α :=
  l.filterMap (fun
    | .sym a => some a
    | .hole _ => none)

@[simp] theorem syms_nil : (syms [] : List (Atom α ι)) = [] := rfl

@[simp] theorem syms_append (as bs : List α) :
    (syms (as ++ bs) : List (Atom α ι)) = syms as ++ syms bs := List.map_append

@[simp] theorem length_syms (as : List α) : (syms as : List (Atom α ι)).length = as.length :=
  List.length_map _

theorem drop_syms (n : Nat) (as : List α) :
    (syms as : List (Atom α ι)).drop n = syms (as.drop n) := List.map_drop.symm

@[simp] theorem flat_append (l m : List (Atom α ι)) : flat (l ++ m) = flat l ++ flat m :=
  List.filterMap_append

@[simp] theorem flat_syms (as : List α) : flat (syms as : List (Atom α ι)) = as := by
  induction as with
  | nil => rfl
  | cons a as ih => exact congrArg (a :: ·) ih

@[simp] theorem flat_hole (i : ι) : flat ([.hole i] : List (Atom α ι)) = [] := rfl

variable [DecidableEq ι]

/-- Fill the hole of this name. -/
def fill (i : ι) (as : List α) (l : List (Atom α ι)) : List (Atom α ι) :=
  l.flatMap (fun
    | .sym a => [.sym a]
    | .hole j => if j = i then syms as else [.hole j])

@[simp] theorem fill_append (i : ι) (as : List α) (l m : List (Atom α ι)) :
    fill i as (l ++ m) = fill i as l ++ fill i as m := List.flatMap_append

@[simp] theorem fill_syms (i : ι) (as bs : List α) :
    fill i as (syms bs : List (Atom α ι)) = syms bs := by
  induction bs with
  | nil => rfl
  | cons b bs ih => exact congrArg (Atom.sym b :: ·) ih

@[simp] theorem fill_self (i : ι) (as : List α) : fill i as [.hole i] = syms as := by
  simp [fill]

theorem fill_other {i j : ι} (h : j ≠ i) (as : List α) :
    fill i as ([.hole j] : List (Atom α ι)) = [.hole j] := by
  simp [fill, h]

end HoleStream
