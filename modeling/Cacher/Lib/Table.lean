import Cacher.Lib.CString

/-!
# `Cacher.Lib.Table`: the APR table

An `apr_table_t` is an ordered multimap from names to values. Names are compared
without regard to ASCII case and keep the case they were first stored under.
`apr_table_get` finds the first entry of a name, `apr_table_setn` overwrites it and
drops the other entries of that name, and `apr_table_do` visits every entry in order.

`setAll` is a run of `apr_table_setn` calls. The results below say what such a run
leaves behind: `valuesOf_setAll` gives the values of each name,
`setAll_eq_self_iff` says when the run changes nothing, and `setAll_append_of_prefix`
when it appends entries unchanged.
-/

set_option autoImplicit false

namespace CText

/-- An `apr_table_t`: its entries in order. -/
abbrev Table := List (CString × CString)

namespace Table

/-- The entry `e` is stored under the name `k`. -/
def named (k : CString) (e : CString × CString) : Bool := eqCi k e.1

/-- `apr_table_get`: the value of the first entry named `k`. -/
def get (t : Table) (k : CString) : Option CString := (t.find? (named k)).map (·.2)

/-- All values stored under the name `k`, in order. -/
def valuesOf (t : Table) (k : CString) : List CString := (t.filter (named k)).map (·.2)

/-- `apr_table_setn`: the first entry named `k` gets the value `v` and the others
named `k` go away. A new entry is added at the end when there is none. -/
def setn : Table → CString → CString → Table
  | [], k, v => [(k, v)]
  | e :: t, k, v =>
    if named k e then (e.1, v) :: t.filter (!named k ·) else e :: setn t k v

/-- A run of `apr_table_setn` calls. -/
def setAll (t : Table) (ps : Table) : Table := ps.foldl (fun t p => setn t p.1 p.2) t

/-- No two entries share a name. -/
def Distinct (t : Table) : Prop := t.Pairwise fun a b => named a.1 b = false

/-- No entry of `t` has the name of an entry of `ps`. -/
def Avoids (t ps : Table) : Prop := ∀ p ∈ ps, ∀ e ∈ t, named p.1 e = false

instance (t : Table) : Decidable (Distinct t) := by unfold Distinct; infer_instance

@[simp] theorem setAll_nil (t : Table) : setAll t [] = t := rfl

@[simp] theorem setAll_cons (t : Table) (p : CString × CString) (ps : Table) :
    setAll t (p :: ps) = setAll (setn t p.1 p.2) ps := rfl

theorem setAll_append (t ps qs : Table) : setAll t (ps ++ qs) = setAll (setAll t ps) qs := by
  simp [setAll]

/-- Names equal up to case name the same entries. -/
theorem named_congr {j k : CString} (h : eqCi j k = true) (e : CString × CString) :
    named j e = named k e := eqCi_congr_left h e.1

/-- Being named alike is symmetric. -/
theorem named_comm (a b : CString × CString) : named a.1 b = named b.1 a := eqCi_symm a.1 b.1

/-- A name has values exactly when some entry has it. -/
theorem valuesOf_ne_nil_iff {t : Table} {k : CString} :
    valuesOf t k ≠ [] ↔ ∃ e ∈ t, named k e = true := by
  simp [valuesOf, List.filter_eq_nil_iff]

/-- Dropping a name that the table lacks drops nothing. -/
theorem filter_not_named_eq_self {t : Table} {k : CString} (h : ∀ e ∈ t, named k e = false) :
    t.filter (!named k ·) = t := by
  rw [List.filter_eq_self]
  intro e he
  simp [h e he]

/-! ### What one `setn` does -/

/-- A name the table does not hold is appended. -/
theorem setn_of_absent {t : Table} {k : CString} (h : ∀ e ∈ t, named k e = false)
    (v : CString) : setn t k v = t ++ [(k, v)] := by
  induction t with
  | nil => rfl
  | cons e t ih =>
      rw [setn, h e List.mem_cons_self, ih fun x hx => h x (List.mem_cons_of_mem _ hx)]
      rfl

/-- `setn` on a concatenation works in the second part when the first lacks the name. -/
theorem setn_append {t : Table} {k : CString} (h : ∀ e ∈ t, named k e = false)
    (u : Table) (v : CString) : setn (t ++ u) k v = t ++ setn u k v := by
  induction t with
  | nil => rfl
  | cons e t ih =>
      rw [List.cons_append, setn, h e List.mem_cons_self,
        ih fun x hx => h x (List.mem_cons_of_mem _ hx)]
      rfl

/-- An entry named `k` is not named `j` when the two names differ. -/
theorem named_eq_false {j k : CString} {e : CString × CString} (hjk : eqCi j k = false)
    (hk : named k e = true) : named j e = false := by
  cases hj : named j e with
  | false => rfl
  | true =>
      have : eqCi j k = true := eqCi_trans hj (by rw [eqCi_symm]; exact hk)
      rw [hjk] at this
      cases this

/-- Dropping the entries named `k` keeps those of another name. -/
theorem filter_named_filter_not {j k : CString} (hjk : eqCi j k = false) (t : Table) :
    (t.filter (!named k ·)).filter (named j) = t.filter (named j) := by
  rw [List.filter_filter]
  refine List.filter_congr fun e _ => ?_
  cases hk : named k e with
  | false => simp
  | true => simp [named_eq_false hjk hk]

/-- After `setn` the name has exactly the new value. Other names keep their values. -/
theorem valuesOf_setn (t : Table) (k v j : CString) :
    valuesOf (setn t k v) j = if eqCi j k then [v] else valuesOf t j := by
  induction t with
  | nil => cases hjk : eqCi j k <;> simp [setn, valuesOf, named, hjk]
  | cons e t ih =>
      rw [setn]
      cases hjk : eqCi j k with
      | false =>
          simp only [hjk, valuesOf, Bool.false_eq_true, if_false] at ih ⊢
          cases hke : named k e with
          | false => cases hje : named j e <;> simpa [hje] using ih
          | true =>
              -- The overwritten entry and the dropped ones have another name than `j`.
              have hje : named j e = false := named_eq_false hjk hke
              have hje' : named j (e.1, v) = false := hje
              rw [if_pos rfl, List.filter_cons_of_neg (by simp [hje']),
                List.filter_cons_of_neg (by simp [hje]), filter_named_filter_not hjk]
      | true =>
          simp only [hjk, valuesOf, if_true] at ih ⊢
          have hje : named j e = named k e := named_congr hjk e
          cases hke : named k e with
          | false => simpa [hje, hke] using ih
          | true =>
              have hje' : named j (e.1, v) = true := by rw [← hke, ← hje]; rfl
              have hnone : (t.filter (!named k ·)).filter (named j) = [] := by
                rw [List.filter_filter, List.filter_eq_nil_iff]
                intro x _
                simp [named_congr hjk x]
              rw [if_pos rfl, List.filter_cons_of_pos hje', hnone]
              rfl

/-- The entries with other names stay as they are. -/
theorem filter_not_named_setn (t : Table) (k v : CString) :
    (setn t k v).filter (!named k ·) = t.filter (!named k ·) := by
  induction t with
  | nil => simp [setn, named, eqCi_refl]
  | cons e t ih =>
      rw [setn]
      by_cases he : named k e = true
      · have hv : named k (e.1, v) = true := he
        rw [if_pos he, List.filter_cons_of_neg (by simp [hv]), List.filter_cons_of_neg (by simp [he]),
          List.filter_filter]
        simp
      · rw [if_neg he, List.filter_cons_of_pos (by simpa using he),
          List.filter_cons_of_pos (by simpa using he), ih]

/-- A name the table holds once is overwritten in place. -/
theorem setn_of_once {t : Table} {k : CString} (h : (t.filter (named k)).length = 1)
    (v : CString) : setn t k v = t.map fun e => if named k e then (e.1, v) else e := by
  induction t with
  | nil => simp at h
  | cons e t ih =>
      rw [setn]
      cases hke : named k e with
      | false =>
          rw [List.filter_cons_of_neg (by simp [hke])] at h
          simp [hke, ih h]
      | true =>
          rw [List.filter_cons_of_pos hke, List.length_cons, Nat.add_eq_right,
            List.length_eq_zero_iff, List.filter_eq_nil_iff] at h
          have hrest : t.filter (!named k ·) = t :=
            filter_not_named_eq_self fun x hx => by simpa using h x hx
          have hmap : t.map (fun e => if named k e then (e.1, v) else e) = t := by
            rw [List.map_congr_left (g := id) fun x hx => by simp [h x hx]]
            simp
          simp [hke, hrest, hmap]

/-! ### What a run of `setn` does -/

/-- The value the last entry named `k` gives. -/
def lastValue (ps : Table) (k : CString) : Option CString := (valuesOf ps k).getLast?

theorem lastValue_cons (p : CString × CString) (ps : Table) (k : CString) :
    lastValue (p :: ps) k
      = (lastValue ps k).or (if named k p then some p.2 else none) := by
  cases hkp : named k p with
  | false => simp [lastValue, valuesOf, hkp]
  | true =>
      simp only [lastValue, valuesOf, List.filter_cons_of_pos hkp, List.map_cons]
      cases (ps.filter (named k)).map (·.2) with
      | nil => simp
      | cons x xs =>
          rw [List.getLast?_cons_cons, List.getLast?_eq_some_getLast (List.cons_ne_nil x xs)]
          rfl

/-- A run leaves each name it sets with the last value given, and the other names as
they were. -/
theorem valuesOf_setAll (t ps : Table) (k : CString) :
    valuesOf (setAll t ps) k
      = match lastValue ps k with
        | some v => [v]
        | none => valuesOf t k := by
  induction ps generalizing t with
  | nil => simp [lastValue, valuesOf]
  | cons p ps ih =>
      rw [setAll_cons, ih, lastValue_cons, valuesOf_setn]
      cases lastValue ps k with
      | some v => rfl
      | none =>
          cases hkp : named k p with
          | false =>
              have : eqCi k p.1 = false := hkp
              simp [this]
          | true =>
              have : eqCi k p.1 = true := hkp
              simp [this]

/-- A run over names that the table holds exactly once rewrites the values in place. -/
theorem setAll_of_once (t ps : Table)
    (h : ∀ p ∈ ps, (t.filter (named p.1)).length = 1) :
    setAll t ps = t.map fun e => (e.1, (lastValue ps e.1).getD e.2) := by
  induction ps generalizing t with
  | nil => simp [lastValue, valuesOf]
  | cons p ps ih =>
      have hp := h p List.mem_cons_self
      -- Overwriting in place moves no name, so the later names still occur once.
      have hskel : ∀ q : CString,
          ((setn t p.1 p.2).filter (named q)).length = (t.filter (named q)).length := by
        intro q
        rw [setn_of_once hp, List.filter_map, List.length_map]
        congr 1
        refine List.filter_congr fun e _ => ?_
        show named q (if named p.1 e then (e.1, p.2) else e) = named q e
        split <;> rfl
      rw [setAll_cons, ih _ fun q hq => by rw [hskel]; exact h q (List.mem_cons_of_mem _ hq),
        setn_of_once hp, List.map_map]
      refine List.map_congr_left fun e _ => ?_
      have hcons := lastValue_cons p ps e.1
      rw [named_comm e p] at hcons
      show (fun x : CString × CString => (x.1, (lastValue ps x.1).getD x.2))
          (if named p.1 e then (e.1, p.2) else e) = _
      rw [hcons]
      cases named p.1 e with
      | false => simp
      | true =>
          simp only [if_true]
          cases lastValue ps e.1 <;> rfl

/-- A run changes nothing exactly when each name it sets already has, as its only
value, the last one given. -/
theorem setAll_eq_self_iff (t ps : Table) :
    setAll t ps = t ↔ ∀ p ∈ ps, ∃ v, lastValue ps p.1 = some v ∧ valuesOf t p.1 = [v] := by
  have hlast : ∀ p ∈ ps, ∃ v, lastValue ps p.1 = some v := by
    intro p hp
    have hne : valuesOf ps p.1 ≠ [] := valuesOf_ne_nil_iff.mpr ⟨p, hp, eqCi_refl p.1⟩
    exact ⟨_, List.getLast?_eq_some_getLast hne⟩
  constructor
  · intro h p hp
    obtain ⟨v, hv⟩ := hlast p hp
    have hval := valuesOf_setAll t ps p.1
    rw [h, hv] at hval
    exact ⟨v, hv, hval⟩
  · intro h
    have honce : ∀ p ∈ ps, (t.filter (named p.1)).length = 1 := by
      intro p hp
      obtain ⟨v, -, hval⟩ := h p hp
      simpa [valuesOf] using congrArg List.length hval
    rw [setAll_of_once t ps honce]
    refine (List.map_congr_left fun e he => ?_).trans (List.map_id t)
    cases hl : lastValue ps e.1 with
    | none => rfl
    | some v =>
        -- `e.1` is set by some entry `p` of the run, which fixes its only value.
        have hmem : valuesOf ps e.1 ≠ [] := by
          intro hnil
          simp [lastValue, hnil] at hl
        obtain ⟨p, hp, hnamed⟩ := valuesOf_ne_nil_iff.mp hmem
        have hnamed' : eqCi e.1 p.1 = true := hnamed
        obtain ⟨v', hv', hval⟩ := h p hp
        have hsame : ∀ u : Table, valuesOf u e.1 = valuesOf u p.1 := by
          intro u
          simp only [valuesOf]
          rw [List.filter_congr fun x _ => named_congr hnamed' x]
        rw [lastValue, hsame] at hl
        rw [lastValue, hl] at hv'
        have he' : e.2 ∈ valuesOf t e.1 :=
          List.mem_map_of_mem (List.mem_filter.mpr ⟨he, by simp [named]⟩)
        rw [hsame, hval, List.mem_singleton] at he'
        cases hv'
        show (e.1, v) = e
        rw [← he']

/-! ### When a run appends its entries unchanged -/

/-- A run over names the front lacks works behind the front. -/
theorem setAll_append_left {t ps : Table} (h : Avoids t ps) (u : Table) :
    setAll (t ++ u) ps = t ++ setAll u ps := by
  induction ps generalizing u with
  | nil => rfl
  | cons p ps ih =>
      rw [setAll_cons, setAll_cons, setn_append (h p List.mem_cons_self)]
      exact ih (fun q hq => h q (List.mem_cons_of_mem _ hq)) _

/-- A run over pairwise distinct new names appends them in order. -/
theorem setAll_of_distinct {t ps : Table} (hps : Distinct ps) (h : Avoids t ps) :
    setAll t ps = t ++ ps := by
  induction ps generalizing t with
  | nil => simp
  | cons p ps ih =>
      rw [Distinct, List.pairwise_cons] at hps
      rw [setAll_cons, setn_of_absent (h p List.mem_cons_self), ih hps.2]
      · simp
      · intro q hq e he
        rcases List.mem_append.mp he with he | he
        · exact h q (List.mem_cons_of_mem _ hq) e he
        · rw [List.mem_singleton.mp he]
          show eqCi q.1 p.1 = false
          rw [eqCi_symm]
          exact hps.1 q hq

/-- `setn` on a table of distinct names keeps the names it holds, in place. -/
theorem map_fst_setn {t : Table} (ht : Distinct t) (k v : CString) :
    t.map (·.1) <+: (setn t k v).map (·.1) := by
  induction t with
  | nil => exact List.nil_prefix
  | cons e t ih =>
      rw [Distinct, List.pairwise_cons] at ht
      rw [setn]
      cases hke : named k e with
      | false => simpa using ih ht.2
      | true =>
          have hrest : t.filter (!named k ·) = t := by
            refine filter_not_named_eq_self fun x hx => ?_
            rw [← named_congr (by rw [eqCi_symm]; exact hke : eqCi e.1 k = true)]
            exact ht.1 x hx
          simp [hrest]

/-- Every name in the table after `setn` is the new one or was there. -/
theorem eq_or_mem_of_mem_setn {t : Table} {k v : CString} {e : CString × CString}
    (he : e ∈ setn t k v) : eqCi k e.1 = true ∨ ∃ x ∈ t, x.1 = e.1 := by
  induction t with
  | nil =>
      rw [List.mem_singleton.mp he]
      exact Or.inl (eqCi_refl k)
  | cons x t ih =>
      rw [setn] at he
      split at he
      · rcases List.mem_cons.mp he with rfl | he
        · exact Or.inr ⟨x, List.mem_cons_self, rfl⟩
        · exact Or.inr ⟨e, List.mem_cons_of_mem _ (List.mem_filter.mp he).1, rfl⟩
      · rcases List.mem_cons.mp he with rfl | he
        · exact Or.inr ⟨e, List.mem_cons_self, rfl⟩
        · rcases ih he with h | ⟨y, hy, hye⟩
          · exact Or.inl h
          · exact Or.inr ⟨y, List.mem_cons_of_mem _ hy, hye⟩

/-- `setn` keeps names distinct. -/
theorem distinct_setn {t : Table} (ht : Distinct t) (k v : CString) :
    Distinct (setn t k v) := by
  induction t with
  | nil => simp [setn, Distinct]
  | cons e t ih =>
      rw [Distinct, List.pairwise_cons] at ht
      rw [setn]
      cases hke : named k e with
      | true =>
          rw [if_pos rfl, Distinct, List.pairwise_cons]
          refine ⟨fun x hx => ht.1 x (List.mem_filter.mp hx).1, ht.2.filter _⟩
      | false =>
          rw [if_neg (by simp), Distinct, List.pairwise_cons]
          refine ⟨fun x hx => ?_, ih ht.2⟩
          show eqCi e.1 x.1 = false
          rcases eq_or_mem_of_mem_setn hx with h | ⟨z, hz, hzx⟩
          · rw [eqCi_symm, ← eqCi_congr_left h]
            exact hke
          · rw [← hzx]
            exact ht.1 z hz

theorem distinct_setAll {t : Table} (ht : Distinct t) (ps : Table) :
    Distinct (setAll t ps) := by
  induction ps generalizing t with
  | nil => exact ht
  | cons p ps ih => exact ih (distinct_setn ht p.1 p.2)

theorem map_fst_setAll {t : Table} (ht : Distinct t) (ps : Table) :
    t.map (·.1) <+: (setAll t ps).map (·.1) := by
  induction ps generalizing t with
  | nil => exact List.prefix_refl _
  | cons p ps ih => exact (map_fst_setn ht p.1 p.2).trans (ih (distinct_setn ht p.1 p.2))

/-- A run over exactly the names the table holds, in the same order, replaces it. -/
theorem setAll_of_map_fst_eq {t ps : Table} (ht : Distinct t) (h : t.map (·.1) = ps.map (·.1)) :
    setAll t ps = ps := by
  induction ps generalizing t with
  | nil => simpa using h
  | cons p ps ih =>
      cases t with
      | nil => simp at h
      | cons e t =>
          rw [Distinct, List.pairwise_cons] at ht
          simp only [List.map_cons, List.cons.injEq] at h
          have hrest : t.filter (!named p.1 ·) = t := by
            refine filter_not_named_eq_self fun x hx => ?_
            rw [← h.1]
            exact ht.1 x hx
          -- The rest of the run does not touch the entry just overwritten.
          have hfront : Avoids [(e.1, p.2)] ps := by
            intro q hq x hx
            rw [List.mem_singleton.mp hx]
            obtain ⟨y, hy, hyq⟩ := List.mem_map.mp
              (show q.1 ∈ t.map (·.1) by rw [h.2]; exact List.mem_map_of_mem hq)
            show eqCi q.1 e.1 = false
            rw [← hyq, eqCi_symm]
            exact ht.1 y hy
          rw [setAll_cons, setn, if_pos (by rw [named, h.1]; exact eqCi_refl _), hrest]
          show setAll ([(e.1, p.2)] ++ t) ps = p :: ps
          rw [setAll_append_left hfront, ih ht.2 h.2, h.1]
          rfl

/-- If a run of `extra` and then `ps` over the empty table leaves `ps`, the names of `ps`
are distinct and begin with the names that `extra` alone would leave. -/
theorem prefix_of_setAll_append {extra ps : Table} (h : setAll [] (extra ++ ps) = ps) :
    Distinct ps ∧ (setAll [] extra).map (·.1) <+: ps.map (·.1) := by
  have hnil : Distinct ([] : Table) := List.Pairwise.nil
  rw [setAll_append] at h
  constructor
  · rw [← h]
    exact distinct_setAll (distinct_setAll hnil extra) ps
  · have hpre := map_fst_setAll (distinct_setAll hnil extra) ps
    rwa [h] at hpre

/-- The converse, over every table that lacks the names of `ps`. -/
theorem setAll_append_of_prefix {extra ps : Table} (hps : Distinct ps)
    (hpre : (setAll [] extra).map (·.1) <+: ps.map (·.1)) {t : Table} (ht : Avoids t ps) :
    setAll t (extra ++ ps) = t ++ ps := by
  have hnil : Distinct ([] : Table) := List.Pairwise.nil
  -- The names of `extra` are among those of `ps`, so `t` lacks them too.
  have hnames : ∀ q ∈ extra, ∃ p ∈ ps, eqCi q.1 p.1 = true := by
    intro q hq
    have hne : valuesOf (setAll [] extra) q.1 ≠ [] := by
      rw [valuesOf_setAll]
      have hmem : valuesOf extra q.1 ≠ [] := valuesOf_ne_nil_iff.mpr ⟨q, hq, eqCi_refl q.1⟩
      rw [lastValue, List.getLast?_eq_some_getLast hmem]
      simp
    obtain ⟨e, he, hqe⟩ := valuesOf_ne_nil_iff.mp hne
    obtain ⟨p, hp, hpe⟩ := List.mem_map.mp (hpre.subset (List.mem_map_of_mem he))
    exact ⟨p, hp, by rw [hpe]; exact hqe⟩
  have hav : Avoids t (extra ++ ps) := by
    intro q hq e he
    rcases List.mem_append.mp hq with hq | hq
    · obtain ⟨p, hp, hqp⟩ := hnames q hq
      rw [named_congr hqp]
      exact ht p hp e he
    · exact ht q hq e he
  obtain ⟨tail, htail⟩ := hpre
  -- `ps` splits where the names `extra` leaves end.
  have hsplit : ps = ps.take (setAll [] extra).length ++ ps.drop (setAll [] extra).length :=
    (List.take_append_drop _ _).symm
  have hfront : (setAll [] extra).map (·.1)
      = (ps.take (setAll [] extra).length).map (·.1) := by
    rw [List.map_take, ← htail, List.take_append_of_le_length (by simp),
      List.take_of_length_le (by simp)]
  have hrun : setAll (setAll [] extra) ps = ps := by
    rw [Distinct, hsplit, List.pairwise_append] at hps
    have hback := setAll_of_distinct hps.2.1 (t := ps.take (setAll [] extra).length)
      fun p hp e he => by rw [named_comm p e]; exact hps.2.2 e he p hp
    rw [← setAll_of_map_fst_eq (distinct_setAll hnil extra) hfront, ← setAll_append,
      ← hsplit] at hback
    rw [hback, setAll_of_map_fst_eq (distinct_setAll hnil extra) hfront]
    exact hsplit.symm
  have := setAll_append_left hav []
  rw [List.append_nil] at this
  rw [this, setAll_append, hrun]

end Table

end CText
