import FlowAnalysis.WordSet
import Mathlib.Logic.Function.Basic

/-!
Programs that build and change sets, run on sets of any kind. Main statement: if every operation
does to the images of sets what it does to the sets, so does every program, with the same answers.
-/
namespace FlowAnalysis

/-- How sets of a kind are built and changed. What changes a set answers, and after a fault leaves
what it leaves. -/
structure SetBuilder (S : Type) where
  empty : Nat → S
  full : Nat → S
  ofList : Nat → List Nat → Except Fault S
  insert : S → Nat → Except Fault Bool × S
  fill : S → S
  combine : Combination → S → S → Except Fault Bool × S

/-- One line of a program on the sets in variables. -/
inductive SetOperation
  | new (x n : Nat)
  | full (x n : Nat)
  | ofList (x n : Nat) (is : List Nat)
  | copy (x y : Nat)
  | insert (x i : Nat)
  | fill (x : Nat)
  | combine (op : Combination) (x y : Nat)

namespace SetBuilder

variable {S T : Type}

/-- The answer to one line, if it has any, and the sets after it. -/
def step (b : SetBuilder S) (sets : Nat → S) : SetOperation → Except Fault (Option Bool) × (Nat → S)
  | .new x n => (.ok none, Function.update sets x (b.empty n))
  | .full x n => (.ok none, Function.update sets x (b.full n))
  | .ofList x n is =>
    match b.ofList n is with
    | .ok s => (.ok none, Function.update sets x s)
    | .error f => (.error f, sets)
  | .copy x y => (.ok none, Function.update sets x (sets y))
  | .insert x i =>
    let (answer, s) := b.insert (sets x) i
    (some <$> answer, Function.update sets x s)
  | .fill x => (.ok none, Function.update sets x (b.fill (sets x)))
  | .combine op x y =>
    let (answer, s) := b.combine op (sets x) (sets y)
    (some <$> answer, Function.update sets x s)

/-- A program goes on after a fault. -/
def runFrom (b : SetBuilder S) (sets : Nat → S) :
    List SetOperation → List (Except Fault (Option Bool)) × (Nat → S)
  | [] => ([], sets)
  | o :: os =>
    let (answer, sets) := b.step sets o
    let (answers, sets) := b.runFrom sets os
    (answer :: answers, sets)

/-- Variables start as sets of the universe of size 0. -/
def run (b : SetBuilder S) (os : List SetOperation) :
    List (Except Fault (Option Bool)) × (Nat → S) := b.runFrom (fun _ => b.empty 0) os

def answers (b : SetBuilder S) (os : List SetOperation) : List (Except Fault (Option Bool)) :=
  (b.run os).1

/-- The sets that the variables end with. -/
def sets (b : SetBuilder S) (os : List SetOperation) : Nat → S := (b.run os).2

/-- Every operation does to `f s` what it does to `s`. -/
structure Respects (f : S → T) (b : SetBuilder S) (c : SetBuilder T) : Prop where
  empty : ∀ n, c.empty n = f (b.empty n)
  full : ∀ n, c.full n = f (b.full n)
  ofList : ∀ n is, c.ofList n is = f <$> b.ofList n is
  insert : ∀ s i, c.insert (f s) i = Prod.map id f (b.insert s i)
  fill : ∀ s, c.fill (f s) = f (b.fill s)
  combine : ∀ op s t, c.combine op (f s) (f t) = Prod.map id f (b.combine op s t)

variable {f : S → T} {b : SetBuilder S} {c : SetBuilder T}

theorem Respects.step (h : Respects f b c) (sets : Nat → S) (o : SetOperation) :
    c.step (f ∘ sets) o = Prod.map id (f ∘ ·) (b.step sets o) := by
  cases o with
  | new x n => simp only [SetBuilder.step, h.empty, Prod.map, Function.comp_update, id]
  | full x n => simp only [SetBuilder.step, h.full, Prod.map, Function.comp_update, id]
  | ofList x n is =>
    simp only [SetBuilder.step, h.ofList]
    cases b.ofList n is with
    | ok s => simp only [Functor.map, Except.map, Prod.map, Function.comp_update, id]
    | error e => rfl
  | copy x y => simp only [SetBuilder.step, Prod.map, Function.comp_update, Function.comp_apply, id]
  | insert x i =>
    simp only [SetBuilder.step, Function.comp_apply, h.insert, Prod.map, Function.comp_update, id]
  | fill x =>
    simp only [SetBuilder.step, Function.comp_apply, h.fill, Prod.map, Function.comp_update, id]
  | combine op x y =>
    simp only [SetBuilder.step, Function.comp_apply, h.combine, Prod.map, Function.comp_update, id]

theorem Respects.runFrom (h : Respects f b c) (sets : Nat → S) (os : List SetOperation) :
    c.runFrom (f ∘ sets) os = Prod.map id (f ∘ ·) (b.runFrom sets os) := by
  induction os generalizing sets with
  | nil => rfl
  | cons o os ih =>
    simp only [SetBuilder.runFrom, h.step, Prod.map, ih, id]

theorem Respects.run (h : Respects f b c) (os : List SetOperation) :
    c.run os = Prod.map id (f ∘ ·) (b.run os) := by
  have start : (fun _ => c.empty 0 : Nat → T) = f ∘ fun _ => b.empty 0 := by
    rw [h.empty]
    rfl
  rw [SetBuilder.run, start, h.runFrom]
  rfl

theorem Respects.answers (h : Respects f b c) (os : List SetOperation) :
    c.answers os = b.answers os := by
  rw [SetBuilder.answers, h.run]
  rfl

theorem Respects.sets (h : Respects f b c) (os : List SetOperation) (x : Nat) :
    c.sets os x = f (b.sets os x) := by
  rw [SetBuilder.sets, h.run]
  rfl

end SetBuilder

end FlowAnalysis
