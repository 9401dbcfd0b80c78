import Preproc.Macro.Table

/-! # Tables that were made by definitions

A table that comes from the empty one by definitions and removals never has two definitions of one
serial number. So for the macros of such a table, to be busy is to have a name that is busy.
-/

namespace Preproc.MacroTable

/-- The tables that come from the empty one by definitions and removals. -/
inductive Made : MacroTable → Prop
  | empty : Made {}
  | define {table : MacroTable} (definition : Macro) (made : Made table) :
      Made (table.define definition)
  | undefine {table : MacroTable} (name : String) (made : Made table) :
      Made (table.undefine name)

variable {entry : Macro.Entry} {table : MacroTable}

theorem mem_of_mem_insert {other : Macro.Entry} {entries : List Macro.Entry}
    (member : other ∈ insert entry entries) : other = entry ∨ other ∈ entries := by
  fun_induction insert entry entries with
  | case1 => exact .inl (List.mem_singleton.mp member)
  | case2 first rest same =>
    rcases List.mem_cons.mp member with here | later
    · exact .inl here
    · exact .inr (List.mem_cons_of_mem _ later)
  | case3 first rest differs before => exact List.mem_cons.mp member
  | case4 first rest differs after ih =>
    rcases List.mem_cons.mp member with here | later
    · exact .inr (by simp [here])
    · exact (ih later).imp_right (List.mem_cons_of_mem _)

theorem Made.serial_lt (made : table.Made) :
    ∀ entry ∈ table.entries, entry.serial < table.nextSerial := by
  induction made with
  | empty => simp
  | define definition made ih =>
    intro entry member
    rcases mem_of_mem_insert member with rfl | before
    · exact Nat.lt_succ_self _
    · exact Nat.lt_succ_of_lt (ih entry before)
  | undefine name made ih => exact fun entry member => ih entry (List.mem_filter.mp member).1

theorem Made.eq_of_serial (made : table.Made) : ∀ left ∈ table.entries, ∀ right ∈ table.entries,
      left.serial = right.serial → left = right := by
  induction made with
  | empty => simp
  | @define table definition made ih =>
    intro left leftMember right rightMember same
    have older := made.serial_lt
    rcases mem_of_mem_insert leftMember with rfl | leftOld
    · rcases mem_of_mem_insert rightMember with rfl | rightOld
      · rfl
      · exact absurd same (Nat.ne_of_gt (older right rightOld))
    · rcases mem_of_mem_insert rightMember with rfl | rightOld
      · exact absurd same (Nat.ne_of_lt (older left leftOld))
      · exact ih left leftOld right rightOld same
  | undefine name made ih =>
    intro left leftMember right rightMember
    exact ih left (List.mem_filter.mp leftMember).1 right (List.mem_filter.mp rightMember).1

def entryFor? (table : MacroTable) (token : Token) : Option Macro.Entry :=
  if token.isIdentifier then table.entry? token.lexeme else none

/-- Whether an entry is the one of its name. -/
def InForce (table : MacroTable) (entry : Macro.Entry) : Prop :=
  table.entry? entry.name = some entry

theorem InForce.mem (inForce : table.InForce entry) : entry ∈ table.entries :=
  List.mem_of_find?_eq_some inForce

theorem inForce_of_entryFor? {token : Token}
    (named : table.entryFor? token = some entry) : table.InForce entry := by
  unfold entryFor? at named
  split at named
  · have sameName : entry.name = token.lexeme := by
      simpa using List.find?_some named
    unfold InForce
    rw [sameName]
    exact named
  · cases named

/-- How many entries have a name that is not busy. -/
def idle (table : MacroTable) (busy : List String) : Nat :=
  table.entries.countP fun entry => entry.name ∉ busy

theorem idle_cons_lt {busy : List String}
    (member : entry ∈ table.entries) (free : entry.name ∉ busy) :
    table.idle (entry.name :: busy) < table.idle busy := by
  unfold idle
  generalize table.entries = entries at member
  have fewer (others : List Macro.Entry) :
      others.countP (fun other => other.name ∉ entry.name :: busy) ≤
        others.countP fun other => other.name ∉ busy := by
    refine List.countP_mono_left fun other _ still => ?_
    simp_all
  induction entries with
  | nil => cases member
  | cons first rest ih =>
    have rests := fewer rest
    rw [List.countP_cons, List.countP_cons]
    rcases List.mem_cons.mp member with rfl | later
    · simpa [free] using Nat.lt_succ_of_le rests
    · have less := ih later
      by_cases still : first.name ∈ entry.name :: busy
      · simp only [still, not_true_eq_false, decide_false, Bool.false_eq_true, ↓reduceIte]
        omega
      · have idle : first.name ∉ busy := fun inside => still (List.mem_cons_of_mem _ inside)
        simp only [still, idle, not_false_eq_true, decide_true]
        omega

end Preproc.MacroTable
