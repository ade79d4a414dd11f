/-
  What `we_askshell` takes and gives back: the descriptors of its two pipes and the signal mask.

  Whatever fails, the descriptors that it has opened are closed, each once. The mask is set back
  at `cleanup`, but not at `spawnerrexit`, where the branch for systems without `posix_spawn`
  does it: a child that cannot be started leaves `SIGCHLD` blocked. So the mask is restored
  exactly when the child could be started, was not tried, or `SIGCHLD` was blocked before.
-/
import Librecompat.Wordexp.Errors
import Mathlib.Data.List.Perm.Basic

namespace Librecompat.Wordexp

open Librecompat.Lib

/-- The descriptors of the pipes that the call has opened. -/
def opened (child : Child) : List Nat :=
  match child.pdes, child.perr with
  | none, _ => []
  | some pdes, none => [pdes.1, pdes.2]
  | some pdes, some perr => [pdes.1, pdes.2, perr.1, perr.2]

/-- What was opened has been closed, each descriptor once, and nothing else. -/
def Closed (child : Child) (s s' : Proc) : Prop :=
  ∃ cs, s'.closed = s.closed ++ cs ∧ cs.Perm (opened child)

/-- The state of the process is what it was. -/
structure Restored (child : Child) (s s' : Proc) : Prop where
  sigmask : s'.sigmask = s.sigmask
  closed : Closed child s s'

variable {A : Allocator Obj} {child : Child} {flags : Nat} {words : List UInt8} {s s' : Proc}
  {we we' : WordexpT} {err : Nat}

/-- The call ends at `spawnerrexit`. -/
def SpawnErrExit (A : Allocator Obj) (child : Child) (calls : Nat) : Prop :=
  child.pdes ≠ none ∧ child.perr ≠ none ∧ spawnFails A child calls = true

instance (calls : Nat) : Decidable (SpawnErrExit A child calls) :=
  inferInstanceAs (Decidable (_ ∧ _))

/-- At every return each descriptor that was opened has been closed once, and the mask is what it
    was unless the call ends at `spawnerrexit`. -/
theorem weAskshell_leaves (hs : weAskshell A child flags words s we = some (s', we', err)) :
    Closed child s s' ∧
      s'.sigmask =
        if SpawnErrExit A child s.mem.calls then insert SIGCHLD s.sigmask else s.sigmask := by
  unfold weAskshell at hs
  unfold Closed opened
  split at hs
  · next hpdes =>
    simp only [Option.some.injEq, Prod.mk.injEq] at hs
    obtain ⟨rfl, rfl, rfl⟩ := hs
    rw [if_neg (fun h => h.1 hpdes), hpdes]
    exact ⟨⟨[], (List.append_nil _).symm, .refl _⟩, rfl⟩
  · next pdes hpdes =>
    split at hs
    · next hperr =>
      simp only [Option.some.injEq, Prod.mk.injEq] at hs
      obtain ⟨rfl, rfl, rfl⟩ := hs
      rw [if_neg (fun h => h.2.1 hperr), hpdes, hperr]
      exact ⟨⟨_, rfl, .refl _⟩, rfl⟩
    · next perr hperr =>
      obtain ⟨⟨m₁, spawnerr⟩, hspawn, hs⟩ := Option.bind_eq_some_iff.mp hs
      obtain ⟨_, hfails, _⟩ := spawnShell_spec A hspawn
      rw [hpdes, hperr]
      dsimp only at hs
      split at hs
      · next hne =>
        simp only [Option.some.injEq, Prod.mk.injEq] at hs
        obtain ⟨rfl, rfl, rfl⟩ := hs
        rw [if_pos ⟨by simp [hpdes], by simp [hperr], hfails.mp hne⟩]
        exact ⟨⟨_, rfl, .refl _⟩, rfl⟩
      · next heq =>
        rw [if_neg fun h => heq (hfails.mpr h.2.2)]
        -- every exit behind the spawn goes through `cleanup`
        have hcleanup : s'.sigmask = s.sigmask ∧
            s'.closed = s.closed ++ [pdes.2, perr.2] ++ [pdes.1, perr.1] := by
          obtain ⟨⟨m₂, we₂, r⟩, _, hs⟩ := Option.bind_eq_some_iff.mp hs
          cases r with
          | error e =>
            simp only [Option.some.injEq, Prod.mk.injEq] at hs
            obtain ⟨rfl, rfl, rfl⟩ := hs
            exact ⟨rfl, rfl⟩
          | ok v =>
            dsimp only at hs
            split at hs
            · simp only [Option.some.injEq, Prod.mk.injEq] at hs
              obtain ⟨rfl, rfl, rfl⟩ := hs
              exact ⟨rfl, rfl⟩
            · obtain ⟨text, _, hs⟩ := Option.bind_eq_some_iff.mp hs
              cases text with
              | some e =>
                simp only [Option.some.injEq, Prod.mk.injEq] at hs
                obtain ⟨rfl, rfl, rfl⟩ := hs
                exact ⟨rfl, rfl⟩
              | none =>
                obtain ⟨⟨m₃, e⟩, _, hs⟩ := Option.bind_eq_some_iff.mp hs
                simp only [Option.some.injEq, Prod.mk.injEq] at hs
                obtain ⟨rfl, rfl, rfl⟩ := hs
                exact ⟨rfl, rfl⟩
        refine ⟨⟨[pdes.2, perr.2, pdes.1, perr.1], ?_, ?_⟩, hcleanup.1⟩
        · rw [hcleanup.2, List.append_assoc]
          rfl
        · -- the child's ends are closed first
          have hcomm : ([pdes.2, perr.2] ++ [pdes.1, perr.1]).Perm
              ([pdes.1, perr.1] ++ [pdes.2, perr.2]) := List.perm_append_comm
          exact hcomm.trans ((List.Perm.swap pdes.2 perr.1 [perr.2]).cons pdes.1)

/-- The state of the process is restored exactly when a pipe could not be made, the child could
    be started, or `SIGCHLD` was blocked before. -/
theorem weAskshell_restores_iff
    (hs : weAskshell A child flags words s we = some (s', we', err)) :
    Restored child s s' ↔
      child.pdes = none ∨ child.perr = none ∨ spawnFails A child s.mem.calls = false ∨
        SIGCHLD ∈ s.sigmask := by
  obtain ⟨hclosed, hmask⟩ := weAskshell_leaves hs
  have hsame : Restored child s s' ↔ s'.sigmask = s.sigmask :=
    ⟨Restored.sigmask, fun h => ⟨h, hclosed⟩⟩
  rw [hsame, hmask]
  by_cases hexit : SpawnErrExit A child s.mem.calls
  · rw [if_pos hexit, Finset.insert_eq_self]
    obtain ⟨hpdes, hperr, hspawn⟩ := hexit
    simp [hpdes, hperr, hspawn]
  · rw [if_neg hexit]
    refine iff_of_true rfl ?_
    by_contra hno
    simp only [not_or] at hno
    exact hexit ⟨hno.1, hno.2.1, by simpa using hno.2.2.1⟩

/-- The child sends the word `a` and everything succeeds. -/
theorem weAskshell_restores_iff_a :
    ∃ s' we' err, weAskshell (Allocator.bump Obj fun _ => false)
        (goodChild (chars "0000000100000001" ++ [97, 0])) 0 [97] emptyProc emptyWords =
          some (s', we', err) ∧ err = 0 ∧
      (Restored (goodChild (chars "0000000100000001" ++ [97, 0])) emptyProc s' ↔
        (some (3, 4) : Option (Nat × Nat)) = none ∨ (some (5, 6) : Option (Nat × Nat)) = none ∨
          spawnFails (Allocator.bump Obj fun _ => false)
            (goodChild (chars "0000000100000001" ++ [97, 0])) 0 = false ∨
          SIGCHLD ∈ (∅ : Finset Nat)) := by
  have hcode : (weAskshell (Allocator.bump Obj fun _ => false)
      (goodChild (chars "0000000100000001" ++ [97, 0])) 0 [97] emptyProc emptyWords).map
        (fun r => r.2.2) = some 0 := by decide +kernel
  obtain ⟨⟨s', we', err⟩, hr, herr⟩ := Option.map_eq_some_iff.mp hcode
  exact ⟨s', we', err, hr, herr, weAskshell_restores_iff hr⟩

/-- A child whose spawn attributes cannot be initialised. -/
def unstarted : Child := { goodChild [] with attrInit := ENOMEM }

/-- `posix_spawnattr_init` fails: the call returns with `SIGCHLD` blocked. -/
theorem unstarted_blocks :
    ∃ s' we' err, weAskshell (Allocator.bump Obj fun _ => false) unstarted 0 [97] emptyProc
        emptyWords = some (s', we', err) ∧ ¬ Restored unstarted emptyProc s' := by
  refine ⟨_, _, _, rfl, fun h => ?_⟩
  have hmask : insert SIGCHLD (∅ : Finset Nat) = ∅ := h.sigmask
  exact absurd hmask (by decide)

end Librecompat.Wordexp
