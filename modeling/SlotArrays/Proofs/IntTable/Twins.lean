import SlotArrays.IntTable.Operation
import SlotArrays.IntTable.Wording
import SlotArrays.Keying.Standard
import SlotArrays.Proofs.Call
import SlotArrays.Proofs.Table.Runs
import SlotArrays.Table.Wording

/-! Tables under 32-bit keys in step with tables under a keying.

A table under 32-bit keys has the slots of a table under the keying `wang`, and can be
read as one (`toTable`). Each call is `InStep` with the call of the same name: the two
probes see the same slots, and the rest is put together in the same way. So tables made
alike are `Twins`: over every run they give the same reports, faults included. -/
namespace SlotArrays.IntTable
variable {ν : Type}

/-- The table with the same slots under the keying of 32-bit keys. -/
def toTable (t : IntTable ν) : Table Keying.wang ν :=
  ⟨t.keys, t.values, t.count, t.threshold, t.loadFactor⟩

/-- The same call under either keying. -/
abbrev InStep {α : Type} (x : Action ν α) (y : Table.Action Keying.wang ν α) : Prop :=
  Call.Agree toTable x y

open Call (Agree)

theorem vacates_wang (key : Int32) : Keying.wang.vacates key = (key == vacantKey) := rfl

theorem entries_toTable (t : IntTable ν) : t.toTable.entries = t.entries := rfl

theorem findFrom_eq (keys : Array Int32) (key : Int32) (left i : Nat) :
    findFrom keys key left i = Probe.findFrom Keying.wang.self keys key left i := by
  induction left generalizing i with
  | zero => rfl
  | succ left ih =>
    simp only [findFrom, Probe.findFrom, ih]
    rfl

theorem seatFrom_eq (keys : Array Int32) (key : Int32) (left i : Nat) :
    seatFrom keys key left i = Probe.seatFrom Keying.wang keys key left i := by
  induction left generalizing i with
  | zero => rfl
  | succ left ih =>
    simp only [seatFrom, Probe.seatFrom, ih]
    congr 1
    funext held
    have hgo : (held != vacantKey && held != key) =
        !(Keying.wang.vacates held || Keying.wang.same held key) := (Bool.not_or ..).symm
    rw [hgo]
    cases Keying.wang.vacates held || Keying.wang.same held key <;> rfl

theorem find_inStep (key : Int32) : InStep (find (ν := ν) key) (Table.find Keying.wang.self key) := by
  refine .bind (.view fun _ => rfl) fun keys => ?_
  rw [findFrom_eq]
  exact .lift _

theorem seat_inStep (key : Int32) : InStep (seat (ν := ν) key) (Table.seat key) := by
  refine .bind (.view fun _ => rfl) fun keys => ?_
  rw [seatFrom_eq]
  exact .lift _

theorem keyAt_inStep (i : Nat) : InStep (keyAt (ν := ν) i) (Table.keyAt i) :=
  .bind (.view fun _ => rfl) fun _ => .lift _

theorem valueAt_inStep (i : Nat) : InStep (valueAt (ν := ν) i) (Table.valueAt i) :=
  .bind (.view fun _ => rfl) fun _ => .lift _

theorem writeKey_inStep (i : Nat) (key : Int32) :
    InStep (writeKey (ν := ν) i key) (Table.writeKey i key) :=
  .bind (.view fun _ => rfl) fun _ => .ite (.change fun _ => rfl) (.fail _)

theorem writeValue_inStep (i : Nat) (value : ν) :
    InStep (writeValue i value) (Table.writeValue i value) :=
  .bind (.view fun _ => rfl) fun _ => .ite (.change fun _ => rfl) (.fail _)

theorem countUp_inStep : InStep (countUp (ν := ν)) Table.countUp := .change fun _ => rfl

theorem countDown_inStep : InStep (countDown (ν := ν)) Table.countDown :=
  .bind (.view fun _ => rfl) fun _ => .ite (.fail _) (.change fun _ => rfl)

theorem get_inStep (key : Int32) : InStep (get (ν := ν) key) (Table.get Keying.wang.self key) := by
  refine .bind (find_inStep key) fun found => ?_
  cases found with
  | none => exact .pure _
  | some i => exact .bind (valueAt_inStep i) fun _ => .pure _

theorem modify_inStep (key : Int32) (f : ν → ν) :
    InStep (modify key f) (Table.modify Keying.wang.self key f) := by
  refine .bind (find_inStep key) fun found => ?_
  cases found with
  | none => exact .pure _
  | some i =>
    exact .bind (valueAt_inStep i) fun value => .bind (writeValue_inStep i _) fun _ => .pure _

theorem contains_inStep (key : Int32) :
    InStep (contains (ν := ν) key) (Table.contains Keying.wang.self key) :=
  .bind (find_inStep key) fun _ => .pure _

theorem store_inStep (key : Int32) (value : ν) :
    InStep (store key value) (Table.store key value) := by
  refine .bind (seat_inStep key) fun i => .bind (keyAt_inStep i) fun held => ?_
  refine .bind (writeKey_inStep i key) fun _ => .bind (writeValue_inStep i value) fun _ => ?_
  exact .ite countUp_inStep (.pure ())

theorem insertWith_inStep {grow : Action ν Unit} {grow' : Table.Action Keying.wang ν Unit}
    (hgrow : InStep grow grow') (key : Int32) (value : ν) :
    InStep (insertWith grow key value) (Table.insertWith grow' key value) := by
  refine .ite (.fail _) (.bind (.view fun _ => rfl) fun full => ?_)
  refine .ite ?_ ?_
  · exact .bind hgrow fun _ => store_inStep key value
  · exact store_inStep key value

variable [Inhabited ν]

theorem growWith_inStep {insert : Int32 → ν → Action ν Unit}
    {insert' : Int32 → ν → Table.Action Keying.wang ν Unit}
    (hinsert : ∀ key value, InStep (insert key value) (insert' key value)) :
    InStep (growWith insert) (Table.growWith insert') := by
  refine .view_bind fun old => ?_
  have hsame : old.toTable.loadFactor.grown? old.toTable.count old.toTable.capacity =
      old.loadFactor.grown? old.count old.capacity := rfl
  rw [hsame]
  cases old.loadFactor.grown? old.count old.capacity with
  | none => exact .fail _
  | some slots =>
    refine .bind (.change fun _ => rfl) fun _ => ?_
    exact .bind (.forM fun entry => hinsert entry.1 entry.2) fun _ => .emit _

theorem insertWithin_inStep (depth : Nat) (key : Int32) (value : ν) :
    InStep (insertWithin depth key value) (Table.insertWithin depth key value) := by
  induction depth generalizing key value with
  | zero => exact insertWith_inStep (.fail _) key value
  | succ depth ih => exact insertWith_inStep (growWith_inStep ih) key value

theorem takeSlot_inStep (i : Nat) : InStep (takeSlot (ν := ν) i) (Table.takeSlot i) := by
  refine .bind (keyAt_inStep i) fun key => .bind (writeKey_inStep i _) fun _ => ?_
  refine .bind (valueAt_inStep i) fun value => .bind (writeValue_inStep i _) fun _ => ?_
  exact .bind countDown_inStep fun _ => .pure _

theorem rehashWith_inStep {insert : Int32 → ν → Action ν Unit}
    {insert' : Int32 → ν → Table.Action Keying.wang ν Unit}
    (hinsert : ∀ key value, InStep (insert key value) (insert' key value))
    (slots steps i moved : Nat) :
    InStep (rehashWith insert slots steps i moved)
      (Table.rehashWith insert' slots steps i moved) := by
  induction steps generalizing i moved with
  | zero => exact .fail _
  | succ steps ih =>
    refine .bind (keyAt_inStep i) fun key => .ite (.pure _) ?_
    exact .bind (takeSlot_inStep i) fun entry => .bind (hinsert _ _) fun _ => ih _ _

theorem rehashAfter_inStep (i : Nat) :
    InStep (rehashAfter (ν := ν) i) (Table.rehashAfter i) := by
  refine .bind (.view fun _ => rfl) fun slots => ?_
  refine .bind (rehashWith_inStep (insertWithin_inStep 64) slots _ _ 0) fun moved => ?_
  exact .ite (.emit _) (.pure _)

theorem erase_inStep (key : Int32) :
    InStep (erase (ν := ν) key) (Table.erase Keying.wang.self key) := by
  refine .bind (find_inStep key) fun found => ?_
  cases found with
  | none => exact .pure _
  | some i =>
    exact .bind (takeSlot_inStep i) fun _ => .bind (rehashAfter_inStep i) fun _ => .pure _

theorem perform_inStep (op : TableOp Int32 Int32 ν) :
    InStep (perform op) (Table.perform Keying.wang.self op) := by
  cases op with
  | insert key value => exact .bind (insertWithin_inStep 64 key value) fun _ => .pure _
  | get key => exact .bind (get_inStep key) fun _ => .pure _
  | replace key value => exact .bind (modify_inStep key _) fun _ => .pure _
  | contains key => exact .bind (contains_inStep key) fun _ => .pure _
  | erase key => exact .bind (erase_inStep key) fun _ => .pure _
  | entries => exact .bind (.view entries_toTable) fun _ => .pure _
  | size => exact .bind (.view fun _ => rfl) fun _ => .pure _
  | isEmpty => exact .bind (.view fun _ => rfl) fun _ => .pure _

/-! ### Runs -/

theorem step_toTable (t : IntTable ν) (op : TableOp Int32 Int32 ν) :
    (t.step op).map toTable = Table.step Keying.wang.self t.toTable op :=
  (perform_inStep op).report t

theorem run_toTable (t : IntTable ν) (ops : List (TableOp Int32 Int32 ν)) :
    (t.run ops).map (Call.Report.map toTable) = Table.run Keying.wang.self t.toTable ops := by
  induction ops generalizing t with
  | nil => rfl
  | cons op ops ih =>
    rw [run, List.map_cons, ih, step_toTable, Table.run, ← step_toTable]
    rfl

theorem after_toTable (t : IntTable ν) (ops : List (TableOp Int32 Int32 ν)) :
    (t.after ops).toTable = Table.after Keying.wang.self t.toTable ops := by
  induction ops generalizing t with
  | nil => rfl
  | cons op ops ih =>
    have hstep : (t.step op).held.toTable = (Table.step Keying.wang.self t.toTable op).held := by
      rw [← step_toTable]
      rfl
    rw [after, List.foldl_cons, ← after, ih, hstep]
    rfl

theorem make_toTable (making : TableMaking) :
    (make making : Except Refusal (IntTable ν)).map toTable = Table.make making := by
  have hconfig (config : Config) :
      (ofConfig config : Except Refusal (IntTable ν)).map toTable = Table.ofConfig config := by
    rw [ofConfig, Table.ofConfig]
    cases config.resolve <;> rfl
  cases making with
  | empty => rfl
  | capacity requested => rfl
  | capacityAndLoadFactor requested loadFactor => exact hconfig _
  | config config => exact hconfig config

/-- Both tables are refused, for one cause, or both are made and every run of the one is a run of
the other. -/
inductive Twins : Except Refusal (IntTable ν) → Except Refusal (Table Keying.wang ν) → Prop
  | refused (refusal : Refusal) : Twins (.error refusal) (.error refusal)
  | made (t : IntTable ν)
      (runs : ∀ ops, (t.run ops).map (Call.Report.map toTable) =
        Table.run Keying.wang.self t.toTable ops)
      (faults : ∀ ops op fault, ((t.after ops).step op).answer = .error fault ↔
        ∃ key value, op = .insert key value ∧
          (key = vacantKey ∧ fault = .reservedKey ∨
            key ≠ vacantKey ∧ (t.after ops).toTable.Spent ∧ fault = .capacityOverflow)) :
      Twins (.ok t) (.ok t.toTable)

theorem faults_after {making : TableMaking} {t : IntTable ν} (hmake : make making = .ok t)
    (ops : List (TableOp Int32 Int32 ν)) (op : TableOp Int32 Int32 ν) (fault : Fault) :
    ((t.after ops).step op).answer = .error fault ↔ ∃ key value, op = .insert key value ∧
      (key = vacantKey ∧ fault = .reservedKey ∨
        key ≠ vacantKey ∧ (t.after ops).toTable.Spent ∧ fault = .capacityOverflow) := by
  have hwang : Keying.wang.Lawful := Keying.plain_lawful _ _
  have hmade : Table.make making = .ok t.toTable := by
    rw [← make_toTable, hmake]
    rfl
  have hrest := (Table.AtRest.make hwang hmade).run hwang
    (ops.map fun op => ⟨Int32, Keying.wang.self, hwang.self, op⟩)
  rw [← Table.after_eq_afterAll, ← after_toTable] at hrest
  have houtcome := hrest.outcome hwang hwang.self op
  rw [← step_toTable] at houtcome
  have hfaults := houtcome.answer_eq_error fault
  simp only [vacates_wang, beq_iff_eq, beq_eq_false_iff_ne] at hfaults
  exact hfaults

/-- **A table under 32-bit keys and the table under the same keying are made alike and stay in
step**, whatever is called, and tell of the same things in different words. -/
theorem twins_make (making : TableMaking) :
    Twins (make making : Except Refusal (IntTable ν)) (Table.make making) ∧
    (∀ event, (notice event).level = (Table.notice event).level ∧
      (notice event).fields = (Table.notice event).fields ∧
      (notice event).message ≠ (Table.notice event).message) ∧
    ∀ fault, faultMessage fault = Table.faultMessage fault ↔ fault ≠ .reservedKey := by
  refine ⟨?_, fun event => ?_, fun fault => ?_⟩
  · rw [← make_toTable]
    cases hmake : (make making : Except Refusal (IntTable ν)) with
    | error refusal => exact .refused refusal
    | ok t => exact .made t (run_toTable t) (faults_after hmake)
  · cases event with
    | grew => exact ⟨rfl, rfl, show "int hash table grew" ≠ "hash table grew" by decide⟩
    | rehashed =>
      exact ⟨rfl, rfl,
        show "rehashed int cluster after removal" ≠ "rehashed cluster after removal" by decide⟩
  · cases fault with
    | reservedKey =>
      refine iff_of_false ?_ fun h => h rfl
      show "key 0 marks empty slots and cannot be stored" ≠
        "the default key marks empty slots and cannot be stored"
      decide
    | _ => exact iff_of_true rfl nofun

end SlotArrays.IntTable
