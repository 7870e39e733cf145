/-
Machine arithmetic, errors and configuration (`error.rs`, `config.rs`).

Offsets and lengths are `u64` and `usize` in the source and natural numbers
here.  `usize` is taken to be 64 bits wide.  Arithmetic the source checks keeps
its check; arithmetic it leaves unchecked, and every slice index, is an action
that panics when it would leave the type's range, so that its safety is a
statement about results.
-/
import Mathlib.Algebra.Group.Nat.Defs
import WalDb.Lib.Act

namespace WalDb

open Lib

/-- `u64::checked_add`. -/
def checkedAdd (a b : Nat) : Option Nat := if a + b < 2 ^ 64 then some (a + b) else none

theorem checkedAdd_of_lt {a b : Nat} (h : a + b < 2 ^ 64) : checkedAdd a b = some (a + b) :=
  if_pos h

theorem checkedAdd_of_le {a b : Nat} (h : 2 ^ 64 ≤ a + b) : checkedAdd a b = none :=
  if_neg (Nat.not_lt.mpr h)

theorem checkedAdd_eq_some {a b c : Nat} (h : checkedAdd a b = some c) :
    c = a + b ∧ a + b < 2 ^ 64 := by
  unfold checkedAdd at h
  split at h
  · rename_i hlt
    exact ⟨(Option.some.inj h).symm, hlt⟩
  · cases h

/-- `u64::saturating_add`. -/
def saturatingAdd (a b : Nat) : Nat := min (a + b) (2 ^ 64 - 1)

/-- `u64::saturating_mul`. -/
def saturatingMul (a b : Nat) : Nat := min (a * b) (2 ^ 64 - 1)

/-- The underlying cause of an I/O error: a message the crate makes itself, or
an error of the operating system. -/
inductive IoError where
  | other (msg : String)
  | os
  deriving DecidableEq, Repr

/-- What can go wrong while appending to, syncing, or recovering a log. -/
inductive WalError where
  | io (context : String) (source : IoError)
  | recordTooLarge (len max : Nat)
  | corruption (offset : Nat) (reason : String)
  deriving DecidableEq, Repr

/-- How a call can end without a value: an error it returns, a panic, or a wait
on a condition variable that nobody is left to signal. -/
inductive Fault where
  | err (e : WalError)
  | panics (msg : String)
  | blocked
  deriving DecidableEq, Repr

/-- The call has returned with an error. -/
abbrev Fault.Returned (fault : Fault) : Prop := ∃ e, fault = .err e

/-- How `Wal::iter` reacts to a damaged record. -/
inductive RecoveryPolicy where
  | stopAtFirstError
  | skipBadRecords
  deriving DecidableEq, Repr

/-- What opening a log does when its scan stops before the end of the store. -/
inductive OpenPolicy where
  | truncateTail
  | strict
  deriving DecidableEq, Repr

/-- Tunable parameters of a log.  The maximum record size is a `u32`. -/
structure WalConfig where
  maxRecordSize : Nat
  recoveryPolicy : RecoveryPolicy
  openPolicy : OpenPolicy
  maxRecordSize_lt : maxRecordSize < 2 ^ 32

def defaultMaxRecordSize : Nat := 64 * 1024 * 1024

def WalConfig.new : WalConfig where
  maxRecordSize := defaultMaxRecordSize
  recoveryPolicy := .stopAtFirstError
  openPolicy := .truncateTail
  maxRecordSize_lt := by decide

def WalConfig.withOpenPolicy (config : WalConfig) (policy : OpenPolicy) : WalConfig :=
  { config with openPolicy := policy }

section Checked

variable {σ : Type}

/-- `a - b` on unsigned integers: panics on underflow. -/
def subChecked (a b : Nat) : Act σ Fault Nat :=
  if b ≤ a then pure (a - b) else Act.fail (.panics "attempt to subtract with overflow")

/-- `a + b` on `u64`: panics on overflow. -/
def addChecked (a b : Nat) : Act σ Fault Nat :=
  if a + b < 2 ^ 64 then pure (a + b) else Act.fail (.panics "attempt to add with overflow")

/-- `&bytes[from..to]`: panics outside the slice. -/
def sliceChecked (bytes : List UInt8) (lo hi : Nat) : Act σ Fault (List UInt8) :=
  if lo ≤ hi ∧ hi ≤ bytes.length then pure ((bytes.drop lo).take (hi - lo))
  else Act.fail (.panics "slice index out of range")

/-- `xs[i]`: panics past the end. -/
def getChecked {α : Type} (xs : List α) (i : Nat) : Act σ Fault α :=
  match xs[i]? with
  | some a => pure a
  | none => Act.fail (.panics "index out of bounds")

theorem subChecked_ok {a b : Nat} (h : b ≤ a) (s : σ) :
    subChecked a b s = (.ok (a - b), s) := by
  simp [subChecked, h]

theorem addChecked_ok {a b : Nat} (h : a + b < 2 ^ 64) (s : σ) :
    addChecked a b s = (.ok (a + b), s) := by
  unfold addChecked
  rw [if_pos h]
  rfl

theorem sliceChecked_ok {bytes : List UInt8} {lo hi : Nat} (h : lo ≤ hi)
    (hle : hi ≤ bytes.length) (s : σ) :
    sliceChecked bytes lo hi s = (.ok ((bytes.drop lo).take (hi - lo)), s) := by
  simp [sliceChecked, h, hle]

theorem getChecked_ok {α : Type} {xs : List α} {i : Nat} (h : i < xs.length) (d : α) (s : σ) :
    getChecked xs i s = (.ok (xs.getD i d), s) := by
  rw [getChecked, List.getD_eq_getElem?_getD, List.getElem?_eq_getElem h]
  rfl

end Checked

end WalDb
