import Hmr.Fixpoint
import Mathlib.Data.List.Nodup

/-!
# The decision plan

The last pass puts the positions of the rules into groups by target header: a rule goes to
the group of its header or, if there is none yet, starts one. So headers stand in the
order in which they turn up first, whatever case they are written in, and the positions of
a group in the order of the rules.

The pass goes through the rules once, and looks for a group by the header in lower case.
What it has after some rules is known from the names of their headers alone: a group for
each of the names, repetitions left out, with the positions where it stands (`grouped`).
One rule more is one name more at the end, and it is either in the list already or the
last one to be new (`addTo_grouped`).

The plan is one of the rules that the optimizer leaves behind: each of their positions is
in one group (`Optimizer.optimize_plan`).
-/

namespace Hmr

namespace DecisionTreeAnalysisPass

/-- The headers of rules, as groups are named by them. -/
def headers (hrs : List HeaderRule) : List Bytes := hrs.map fun hr => AstFactory.lower hr.headerName

/-- **The plan there should be**: the headers, once each, with the positions they are at. -/
def grouped (names : List Bytes) : List DecisionGroup :=
  names.eraseDups.map fun k => ⟨k, names.idxsOf k⟩

/-- A list without its repetitions has none. -/
theorem nodup_eraseDups (names : List Bytes) : names.eraseDups.Nodup := by
  induction hn : names.length using Nat.strong_induction_on generalizing names with
  | _ n ih =>
    cases names with
    | nil => exact List.nodup_nil
    | cons a rest =>
      rw [List.eraseDups_cons, List.nodup_cons]
      constructor
      · rw [List.mem_eraseDups, List.mem_filter]
        rintro ⟨-, ha⟩
        simp at ha
      · refine ih _ ?_ _ rfl
        rw [← hn]
        exact Nat.lt_succ_of_le (List.length_filter_le _ _)

/-! ## One rule -/

/-- There is no group of the header: one is started. -/
theorem addTo_new {key : Bytes} {keys : List Bytes} (hkey : key ∉ keys) (i : Nat)
    (at' : Bytes → List Nat) :
    addTo key i (keys.map fun k => ⟨k, at' k⟩)
      = keys.map (fun k => ⟨k, at' k⟩) ++ [⟨key, [i]⟩] := by
  induction keys with
  | nil => rfl
  | cons k rest ih =>
    rw [List.mem_cons, not_or] at hkey
    rw [List.map_cons, addTo, if_neg (Ne.symm hkey.1), ih hkey.2]
    rfl

/-- There is one: the position goes to its end, and the other groups stay. -/
theorem addTo_old {key : Bytes} {keys : List Bytes} (hkeys : keys.Nodup) (hkey : key ∈ keys)
    (i : Nat) (at' : Bytes → List Nat) :
    addTo key i (keys.map fun k => ⟨k, at' k⟩)
      = keys.map fun k => ⟨k, if k = key then at' k ++ [i] else at' k⟩ := by
  -- The key is in the list once, so one group gets the position.
  induction keys with
  | nil => exact absurd hkey List.not_mem_nil
  | cons k rest ih =>
    obtain ⟨hk, hrest⟩ := List.nodup_cons.mp hkeys
    rw [List.map_cons, addTo, List.map_cons]
    by_cases heq : k = key
    · -- the names of the groups are distinct, so the others are not it
      have hothers : rest.map (fun k => (⟨k, at' k⟩ : DecisionGroup))
          = rest.map fun k => ⟨k, if k = key then at' k ++ [i] else at' k⟩ := by
        refine List.map_congr_left fun k' hk' => ?_
        rw [if_neg]
        rintro rfl
        exact hk (heq ▸ hk')
      rw [if_pos heq, if_pos heq, hothers]
    · have hin : key ∈ rest := (List.mem_cons.mp hkey).resolve_left (Ne.symm heq)
      rw [if_neg heq, if_neg heq, ih hrest hin]

/-- **A rule more**: its position is that of the next header. -/
theorem addTo_grouped (names : List Bytes) (key : Bytes) :
    addTo key names.length (grouped names) = grouped (names ++ [key]) := by
  have hidxs : ∀ k, (names ++ [key]).idxsOf k
      = names.idxsOf k ++ if key = k then [names.length] else [] := by
    intro k
    rw [List.idxsOf_append, List.idxsOf_cons, List.idxsOf_nil, Nat.zero_add]
    simp only [beq_iff_eq]
  unfold grouped
  rw [List.eraseDups_append]
  -- a key that is there gets one more place, and one that is not comes last
  by_cases hkey : key ∈ names
  · have hnone : [key].removeAll names = [] := by simp [List.removeAll, hkey]
    rw [hnone, addTo_old (nodup_eraseDups names) (List.mem_eraseDups.mpr hkey)]
    simp only [List.eraseDups_nil, List.append_nil]
    refine List.map_congr_left fun k _ => ?_
    rw [hidxs]
    by_cases heq : k = key
    · rw [if_pos heq, if_pos heq.symm]
    · rw [if_neg heq, if_neg (Ne.symm heq), List.append_nil]
  · have hone : [key].removeAll names = [key] := by simp [List.removeAll, hkey]
    rw [hone, addTo_new (fun h => hkey (List.mem_eraseDups.mp h))]
    have hnew : names.idxsOf key = [] :=
      List.idxsOf_eq_nil_iff.mpr fun y hy => beq_false_of_ne fun h => hkey (h ▸ hy)
    rw [show [key].eraseDups = [key] from rfl, List.map_append]
    congr 1
    · refine List.map_congr_left fun k hk => ?_
      have hne : key ≠ k := fun h => hkey (h ▸ List.mem_eraseDups.mp hk)
      rw [hidxs, if_neg hne, List.append_nil]
    · rw [List.map_singleton, hidxs, if_pos rfl, hnew, List.nil_append]

/-! ## All of them -/

/-- **The groups of some rules**, with those of the rules before them. -/
theorem groupsFrom_grouped (names : List Bytes) (hrs : List HeaderRule) :
    groupsFrom names.length (grouped names) hrs = grouped (names ++ headers hrs) := by
  induction hrs generalizing names with
  | nil => exact congrArg grouped (List.append_nil names).symm
  | cons hr rest ih =>
    have h := ih (names ++ [AstFactory.lower hr.headerName])
    rw [List.length_append, List.length_singleton] at h
    rw [groupsFrom, addTo_grouped, h, List.append_assoc]
    rfl

/-- **The plan is the one there should be.** -/
theorem apply_grouped (rs : Ruleset) :
    apply rs = ((headers rs.headerRules).eraseDups.length, grouped (headers rs.headerRules)) := by
  have h : groupsFrom 0 [] rs.headerRules = grouped (headers rs.headerRules) :=
    groupsFrom_grouped [] rs.headerRules
  unfold apply
  dsimp only
  rw [h, grouped, List.length_map]

/-- **Every position is in one group.** -/
theorem perm_grouped (names : List Bytes) :
    ((grouped names).flatMap (·.ruleIdx)).Perm (List.range names.length) := by
  have hflat : (grouped names).flatMap (·.ruleIdx)
      = names.eraseDups.flatMap fun k => names.idxsOf k := by
    rw [grouped, List.flatMap_map]
  -- A position has one name, so it is in one group.
  have hdisjoint : ∀ {a b : Bytes}, a ≠ b → (names.idxsOf a).Disjoint (names.idxsOf b) := by
    intro a b hab i ha hb
    obtain ⟨hi, ha⟩ := List.mem_idxsOf_iff_exists_getElem_pos.mp ha
    obtain ⟨_, hb⟩ := List.mem_idxsOf_iff_exists_getElem_pos.mp hb
    exact hab ((eq_of_beq ha).symm.trans (eq_of_beq hb))
  rw [hflat]
  refine (List.perm_ext_iff_of_nodup ?_ List.nodup_range).mpr fun i => ?_
  · refine List.nodup_flatMap.mpr ⟨fun k _ => List.nodup_idxsOf, ?_⟩
    exact (nodup_eraseDups names).imp hdisjoint
  · rw [List.mem_flatMap, List.mem_range]
    constructor
    · rintro ⟨k, -, hi⟩
      exact (List.mem_idxsOf_iff_exists_getElem_pos.mp hi).1
    · intro hi
      exact ⟨names[i], List.mem_eraseDups.mpr (List.getElem_mem hi),
        List.mem_idxsOf_iff_exists_getElem_pos.mpr ⟨hi, beq_self_eq_true _⟩⟩

end DecisionTreeAnalysisPass

namespace Optimizer

open DecisionTreeAnalysisPass

/-- **What the report plans**: for every ruleset and number of rounds, the groups are those of
the rules that are left, by header and in the order in which headers turn up, and every rule
is in one of them. -/
theorem optimize_plan (maxIterations : Nat) (rs : Ruleset) :
    let r := optimize maxIterations rs
    let names := headers r.2.headerRules
    r.1.plan = names.eraseDups.map (fun k => ⟨k, names.idxsOf k⟩)
      ∧ (r.1.plan.flatMap (·.ruleIdx)).Perm (List.range r.2.headerRules.length)
      ∧ (r.1.plan.map (·.headerName)).Nodup := by
  have hplan : (optimize maxIterations rs).1.plan
      = grouped (headers (optimize maxIterations rs).2.headerRules) :=
    congrArg Prod.snd (apply_grouped (optimize maxIterations rs).2)
  have hlength : (headers (optimize maxIterations rs).2.headerRules).length
      = (optimize maxIterations rs).2.headerRules.length := List.length_map _
  refine ⟨hplan, ?_, ?_⟩
  · rw [hplan, ← hlength]
    exact perm_grouped _
  · rw [hplan, grouped, List.map_map]
    exact (List.map_id _).symm ▸ nodup_eraseDups _

end Optimizer

end Hmr
