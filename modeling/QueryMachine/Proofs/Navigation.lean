import Mathlib.Data.List.Forall2
import QueryMachine.Proofs.WellFormed

/-!
# Navigation and equality

Equal values lead to equal values: what an index or a slice finds in a value it finds in every
value that equals it (`navigate_congr`). Equality is transitive, but a NaN does not equal itself,
so "the same value or an equal one" is a notion of its own, `Value.Alike`.

`Value.replay` follows a path again, component by component.
-/

namespace QueryMachine

/-- IEEE equality is transitive. -/
theorem Binary64.equal_trans {x y z : Binary64} (hxy : x.equal y = true) (hyz : y.equal z = true) :
    x.equal z = true := by
  simp only [Binary64.equal, Bool.and_eq_true, Bool.or_eq_true, beq_iff_eq] at hxy hyz ⊢
  obtain ⟨⟨hx, -⟩, hxy⟩ := hxy
  obtain ⟨⟨-, hz⟩, hyz⟩ := hyz
  refine ⟨⟨hx, hz⟩, ?_⟩
  have same : ∀ {u v : Binary64}, u.bits = v.bits → u.isZero = v.isZero := by
    rintro ⟨u⟩ ⟨v⟩ rfl
    rfl
  rcases hxy with hbits | ⟨hzero, hy⟩
  · rcases hyz with hbits' | ⟨hzero, hzero'⟩
    · exact .inl (hbits.trans hbits')
    · exact .inr ⟨(same hbits).trans hzero, hzero'⟩
  · rcases hyz with hbits' | ⟨-, hzero'⟩
    · exact .inr ⟨hzero, (same hbits').symm.trans hy⟩
    · exact .inr ⟨hzero, hzero'⟩

namespace Value

/-! ## Equality of containers -/

section

attribute [local simp] equal equalItems equalEntries

theorem equalItems_iff {as bs : List Value} :
    equalItems as bs = true ↔ List.Forall₂ (fun a b => a.equal b = true) as bs := by
  induction as generalizing bs with
  | nil => cases bs <;> simp
  | cons a as ih => cases bs <;> simp [ih]

theorem equalEntries_iff {as bs : List (String × Value)} :
    equalEntries as bs = true ↔
      List.Forall₂ (fun a b => a.1 = b.1 ∧ a.2.equal b.2 = true) as bs := by
  induction as generalizing bs with
  | nil => cases bs <;> simp
  | cons a as ih => cases bs <;> simp [ih, and_assoc]

/-- Arrays are equal when their items are, one by one. -/
theorem equal_array_iff {as bs : Array Value} :
    equal (.array as) (.array bs) = true ↔
      List.Forall₂ (fun a b => a.equal b = true) as.toList bs.toList := by
  rw [equal, Bool.and_eq_true, beq_iff_eq, equalItems_iff]
  exact and_iff_right_of_imp List.Forall₂.length_eq

/-- Objects are equal when their entries are, one by one. -/
theorem equal_object_iff {as bs : List (String × Value)} :
    equal (.object as) (.object bs) = true ↔
      List.Forall₂ (fun a b => a.1 = b.1 ∧ a.2.equal b.2 = true) as bs := by
  rw [equal, Bool.and_eq_true, beq_iff_eq, equalEntries_iff]
  exact and_iff_right_of_imp List.Forall₂.length_eq

/-- Equal values are the same, or equal numbers, or containers with equal members. -/
theorem equal_cases {v w : Value} (h : v.equal w = true) :
    v = w ∨ (∃ x y, v = .float x ∧ w = .float y ∧ x.equal y = true) ∨
      (∃ as bs, v = .array as ∧ w = .array bs ∧
        List.Forall₂ (fun a b => a.equal b = true) as.toList bs.toList) ∨
      ∃ as bs, v = .object as ∧ w = .object bs ∧
        List.Forall₂ (fun a b => a.1 = b.1 ∧ a.2.equal b.2 = true) as bs := by
  cases v <;> cases w
  case float.float x y => exact .inr (.inl ⟨x, y, rfl, rfl, by rwa [equal] at h⟩)
  case array.array as bs => exact .inr (.inr (.inl ⟨as, bs, rfl, rfl, equal_array_iff.mp h⟩))
  case object.object as bs => exact .inr (.inr (.inr ⟨as, bs, rfl, rfl, equal_object_iff.mp h⟩))
  case null.null => exact .inl rfl
  case bool.bool | int.int | string.string | foreign.foreign =>
    rw [equal, beq_iff_eq] at h
    exact .inl (congrArg _ h)
  -- values of different kinds are not equal
  all_goals
    rw [equal] at h
    · cases h
    all_goals simp

theorem equal_null {v : Value} (h : v.equal .null = true) : v = .null := by
  cases v with
  | null => rfl
  | _ => simp at h

theorem equal_string {v : Value} {s : String} (h : v.equal (.string s) = true) :
    v = .string s := by
  cases v with
  | string t =>
    rw [equal, beq_iff_eq] at h
    rw [h]
  | _ => simp at h

theorem equal_array {v : Value} {bs : Array Value} (h : v.equal (.array bs) = true) :
    ∃ as, v = .array as ∧ List.Forall₂ (fun a b => a.equal b = true) as.toList bs.toList := by
  cases v with
  | array as => exact ⟨as, rfl, equal_array_iff.mp h⟩
  | _ => simp at h

theorem equal_object {v : Value} {bs : List (String × Value)} (h : v.equal (.object bs) = true) :
    ∃ as, v = .object as ∧
      List.Forall₂ (fun a b => a.1 = b.1 ∧ a.2.equal b.2 = true) as bs := by
  cases v with
  | object as => exact ⟨as, rfl, equal_object_iff.mp h⟩
  | _ => simp at h

end

/-! ## Transitivity -/

theorem forall₂_trans {α : Type} {R : α → α → Prop} {as bs cs : List α}
    (htrans : ∀ c ∈ cs, ∀ a b, R a b → R b c → R a c) (hab : List.Forall₂ R as bs)
    (hbc : List.Forall₂ R bs cs) : List.Forall₂ R as cs := by
  induction hab generalizing cs with
  | nil => exact hbc
  | @cons a b as bs h hab ih =>
    cases hbc with
    | @cons b c bs cs h' hbc =>
      exact .cons (htrans c List.mem_cons_self a b h h')
        (ih (fun c' hc' => htrans c' (List.mem_cons_of_mem c hc')) hbc)

/-- What holds of a value as soon as it holds of its members holds of all values. -/
theorem members_induction {P : Value → Prop}
    (step : ∀ v, (∀ items, v = .array items → ∀ w ∈ items.toList, P w) →
      (∀ entries, v = .object entries → ∀ entry ∈ entries, P entry.2) → P v) (v : Value) :
    P v := by
  -- a member is smaller than its container
  induction hn : sizeOf v using Nat.strongRecOn generalizing v with
  | ind n ih =>
    refine step v ?_ ?_
    · rintro items rfl w hw
      have hlt := Array.sizeOf_lt_of_mem (Array.mem_toList_iff.mp hw)
      rw [Value.array.sizeOf_spec] at hn
      exact ih (sizeOf w) (by omega) w rfl
    · rintro entries rfl ⟨key, w⟩ hw
      have hlt := List.sizeOf_lt_of_mem hw
      rw [Value.object.sizeOf_spec] at hn
      rw [Prod.mk.sizeOf_spec] at hlt
      exact ih (sizeOf w) (by omega) w rfl

/-- Equality is transitive. -/
theorem equal_trans {a b c : Value} (hab : a.equal b = true) (hbc : b.equal c = true) :
    a.equal c = true := by
  induction c using members_induction generalizing a b with
  | step c hitems hentries =>
    -- `c` decides how `b` may look, and `b` how `a` may
    rcases equal_cases hbc with
        rfl | ⟨y, z, rfl, rfl, hyz⟩ | ⟨bs, cs, rfl, rfl, hcs⟩ | ⟨bs, cs, rfl, rfl, hcs⟩
    · exact hab
    · rcases equal_cases hab with rfl | ⟨x, y, rfl, hy, hxy⟩ | ⟨_, _, -, hb, -⟩ | ⟨_, _, -, hb, -⟩
      · exact hbc
      · obtain rfl := Value.float.inj hy
        rw [equal]
        exact Binary64.equal_trans hxy hyz
      · cases hb
      · cases hb
    · rcases equal_cases hab with rfl | ⟨_, _, -, hb, -⟩ | ⟨as, bs, rfl, hb, hbs⟩ | ⟨_, _, -, hb, -⟩
      · exact hbc
      · cases hb
      · obtain rfl := Value.array.inj hb
        exact equal_array_iff.mpr (forall₂_trans (fun c hc a b => hitems cs rfl c hc) hbs hcs)
      · cases hb
    · rcases equal_cases hab with rfl | ⟨_, _, -, hb, -⟩ | ⟨_, _, -, hb, -⟩ | ⟨as, bs, rfl, hb, hbs⟩
      · exact hbc
      · cases hb
      · cases hb
      · obtain rfl := Value.object.inj hb
        refine equal_object_iff.mpr (forall₂_trans (fun c hc a b hab hbc => ?_) hbs hcs)
        exact ⟨hab.1.trans hbc.1, hentries cs rfl c hc hab.2 hbc.2⟩

/-- The same value, or an equal one. -/
def Alike (v w : Value) : Prop :=
  v = w ∨ v.equal w = true

theorem Alike.trans {u v w : Value} (h : u.Alike v) (h' : v.Alike w) : u.Alike w := by
  rcases h with rfl | h
  · exact h'
  · rcases h' with rfl | h'
    · exact .inr h
    · exact .inr (equal_trans h h')

theorem Alike.equal {u v w : Value} (h : u.Alike v) (h' : v.equal w = true) :
    u.equal w = true := by
  rcases h with rfl | h
  · exact h'
  · exact equal_trans h h'

/-! ## Navigating from equal values -/

/-- Equal objects hold equal values under each key. -/
theorem equal_lookup {as bs : List (String × Value)} (key : String)
    (h : List.Forall₂ (fun a b => a.1 = b.1 ∧ a.2.equal b.2 = true) as bs) :
    ((lookup key as).getD .null).equal ((lookup key bs).getD .null) = true := by
  induction h with
  | nil => rfl
  | @cons a b as bs hab h ih =>
    rw [lookup, lookup, hab.1]
    split
    · exact hab.2
    · exact ih

/-- Equal arrays hold equal items at each position. -/
theorem equal_itemAt {as bs : Array Value} (place : Int64)
    (h : List.Forall₂ (fun a b => a.equal b = true) as.toList bs.toList) :
    (itemAt as place).equal (itemAt bs place) = true := by
  have hsize : as.size = bs.size := h.length_eq
  rw [itemAt, itemAt, hsize]
  cases position? place bs.size with
  | none => rfl
  | some i =>
    dsimp only
    by_cases hi : i < bs.size
    · have hget := h.get (i := i) (by rw [Array.length_toList]; omega) hi
      rw [Array.getD_eq_getD_getElem?, Array.getD_eq_getD_getElem?,
        Array.getElem?_eq_getElem (by omega), Array.getElem?_eq_getElem hi]
      exact hget
    · rw [Array.getD_eq_getD_getElem?, Array.getD_eq_getD_getElem?,
        Array.getElem?_eq_none (by omega), Array.getElem?_eq_none (by omega)]
      rfl

/-- Equal values have equal slices. -/
theorem slice_congr {v w u start stop : Value} (h : v.equal w = true)
    (hw : slice w start stop = .ok u) :
    ∃ u', slice v start stop = .ok u' ∧ u'.equal u = true := by
  -- an equal value is a container of the same kind and length
  cases w with
  | null =>
    obtain rfl := equal_null h
    obtain rfl := Except.ok.inj hw
    exact ⟨.null, rfl, rfl⟩
  | array bs =>
    obtain ⟨as, rfl, hitems⟩ := equal_array h
    have hsize : as.size = bs.size := hitems.length_eq
    simp only [slice] at hw ⊢
    rw [hsize]
    cases hbounds : bounds start stop bs.size with
    | error failure => simp [hbounds] at hw
    | ok range =>
      simp only [hbounds, Except.ok.injEq] at hw ⊢
      refine ⟨_, rfl, ?_⟩
      rw [← hw, equal_array_iff, Array.toList_extract, Array.toList_extract]
      exact List.forall₂_take _ (List.forall₂_drop _ hitems)
  | string s =>
    obtain rfl := equal_string h
    refine ⟨u, hw, ?_⟩
    simp only [slice] at hw
    cases hbounds : bounds start stop s.toList.length with
    | error failure => simp [hbounds] at hw
    | ok range =>
      simp only [hbounds, Except.ok.injEq] at hw
      rw [← hw, equal, beq_iff_eq]
  | _ => simp [slice] at hw

/-- Equal values have equal values at each index. -/
theorem index_congr {v w u key : Value} (h : v.equal w = true) (hw : index w key = .ok u) :
    ∃ u', index v key = .ok u' ∧ u'.equal u = true := by
  cases w with
  | null =>
    obtain rfl := equal_null h
    refine ⟨u, hw, ?_⟩
    cases key <;> simp [index, indexesNull] at hw
    all_goals
      rw [← hw]
      rfl
  | object bs =>
    obtain ⟨as, rfl, hentries⟩ := equal_object h
    cases key with
    | string name =>
      obtain rfl := Except.ok.inj hw
      exact ⟨_, rfl, equal_lookup name hentries⟩
    | _ => simp [index] at hw
  | array bs =>
    obtain ⟨as, rfl, hitems⟩ := equal_array h
    cases key with
    | object range => exact slice_congr h hw
    | int n =>
      obtain rfl := Except.ok.inj hw
      exact ⟨_, rfl, equal_itemAt n hitems⟩
    | float x =>
      simp only [index] at hw ⊢
      cases hx : (Value.float x).index? with
      | none => simp [hx] at hw
      | some place =>
        simp only [hx, Except.ok.injEq] at hw ⊢
        exact ⟨_, rfl, hw ▸ equal_itemAt place hitems⟩
    | _ => simp [index, index?] at hw
  | _ => simp [index] at hw

/-! ## Following a path -/

/-- One step of a path: an object of bounds slices, anything else indexes. -/
def navigate (v component : Value) : Except NativeFailure Value :=
  match component with
  | .object range =>
    slice v ((lookup "start" range).getD .null) ((lookup "end" range).getD .null)
  | key => index v key

/-- Follow a path, component by component. -/
def replay (base : Value) (components : List Value) : Except NativeFailure Value :=
  components.foldlM navigate base

/-- The component leads from a value to one like `u`. -/
def Leads (v component u : Value) : Prop :=
  ∃ w, navigate v component = .ok w ∧ w.Alike u

theorem navigate_congr {v w u component : Value} (h : v.equal w = true)
    (hw : navigate w component = .ok u) :
    ∃ u', navigate v component = .ok u' ∧ u'.equal u = true := by
  cases component with
  | object range => exact slice_congr h hw
  | _ => exact index_congr h hw

/-- A component leads from like values to like values. -/
theorem Leads.of_alike {v w u component : Value} (h : v.Alike w) (hw : w.Leads component u) :
    v.Leads component u := by
  rcases h with rfl | h
  · exact hw
  · obtain ⟨u', hu', halike⟩ := hw
    obtain ⟨u'', hu'', hequal⟩ := navigate_congr h hu'
    exact ⟨u'', hu'', Alike.trans (.inr hequal) halike⟩

/-- One more component at the end of a path. -/
theorem replay_concat {base w : Value} {components : List Value} {component u : Value}
    (h : replay base components = .ok w) (hlead : w.Leads component u) :
    ∃ u', replay base (components ++ [component]) = .ok u' ∧ u'.Alike u := by
  obtain ⟨u', hu', halike⟩ := hlead
  refine ⟨u', ?_, halike⟩
  rw [replay] at h ⊢
  rw [List.foldlM_append, h]
  show (navigate w component >>= pure) = .ok u'
  rw [hu']
  rfl

/-! ## What leads to a value -/

/-- What indexing finds, its key leads to. -/
theorem leads_of_index {v key u : Value} (h : index v key = .ok u) : v.Leads key u := by
  refine ⟨u, ?_, .inl rfl⟩
  cases key with
  | object range =>
    cases v with
    | array items => exact h
    | _ => simp [index, indexesNull] at h
  | _ => exact h

/-- The bounds of a slice as an object, with its entries in the order of their keys. -/
theorem ofEntries_bounds (start stop : Value) :
    ofEntries [("start", start), ("end", stop)] = .object [("end", stop), ("start", start)] := by
  have hlt : "end" < "start" := by decide
  simp [ofEntries, insertEntry, hlt]

/-- What slicing finds, the object of the bounds leads to. -/
theorem leads_of_slice {v start stop u : Value} (h : slice v start stop = .ok u) :
    v.Leads (.ofEntries [("start", start), ("end", stop)]) u := by
  refine ⟨u, ?_, .inl rfl⟩
  rw [ofEntries_bounds, navigate]
  exact h

/-- The position of an item finds it, as long as it is a 64-bit integer. -/
theorem index_ofNat {items : Array Value} {i : Nat} (hi : i < items.size)
    (hsize : items.size ≤ 2 ^ 63) : index (.array items) (ofNat i) = .ok items[i] := by
  have hlt : i < 2 ^ 63 := Nat.lt_of_lt_of_le hi hsize
  have htoInt : (Int64.ofNat i).toInt = i := Int64.toInt_ofNat_of_lt hlt
  have hneg : ¬ Int64.ofNat i < 0 := by
    rw [Int64.lt_iff_toInt_lt, htoInt]
    simp
  have hplace : place (Int64.ofNat i) items.size = Int64.ofNat i := if_neg hneg
  have hnat : (Int64.ofNat i).toNatClampNeg = i := by
    rw [← Int64.toNat_toInt, htoInt, Int.toNat_natCast]
  rw [ofNat, if_pos (show i < Nat.pow 2 63 from hlt)]
  simp [index, index?, itemAt, position?, hplace, hnat, hi, Int64.not_lt.mp hneg]

/-- The key of an entry leads to its value. -/
theorem leads_of_keyed? {v : Value} {entries : List (Value × Value)} (hform : v.WellFormed)
    (hsize : ∀ items, v = .array items → items.size ≤ 2 ^ 63)
    (h : v.keyed? = some entries) {entry : Value × Value} (hmem : entry ∈ entries) :
    v.Leads entry.1 entry.2 := by
  cases hform with
  | array _ =>
    obtain rfl := Option.some.inj h
    obtain ⟨i, hi, rfl⟩ := Array.mem_mapIdx.mp (Array.mem_toList_iff.mp hmem)
    exact leads_of_index (index_ofNat hi (hsize _ rfl))
  | object hkeys _ =>
    obtain rfl := Option.some.inj h
    obtain ⟨⟨key, u⟩, hu, rfl⟩ := List.mem_map.mp hmem
    apply leads_of_index
    rw [index, lookup_of_mem hkeys hu]
    rfl
  | _ => cases h

end Value
end QueryMachine
