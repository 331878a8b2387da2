import Helpz.Db.Statements

/-!
# What a cascading delete is for

* `Affected`, `Cascaded`: the rows that depend on the root row, and the database without them;
* `Followed`: what the rows below the direct children of the root must be like for the statements of `del_impl`,
  which look for the id of the root only;
* `del_cascades`: when `del` is the cascade; `Shallow`: the trees where it is on every database.
-/

namespace HelpzDb

open HelpzLib

variable {V : Type}

/-- The field of `r` holds the pk of `q`. -/
def Refers (d p : DeleteRowInfo) (r q : Row V) : Prop := ∃ v, r d.fieldName = some v ∧ q p.pkName = some v

/-- The row depends on the root row. The rows below one that only gets its field set to `NULL` do not. -/
inductive Affected (db : Database V) (id : V) (root : DeleteRowInfo) : DeleteRowInfo → Row V → Prop
  | root {r : Row V} (hr : r ∈ db root.tableName) (hid : r root.pkName = some id) : Affected db id root root r
  | child {p d : DeleteRowInfo} {q r : Row V} (hq : Affected db id root p q) (hp : p = root ∨ p.setNull = false)
      (hd : d ∈ p.childs) (hr : r ∈ db d.tableName) (href : Refers d p r q) : Affected db id root d r

open Classical in
/-- What the cascade leaves of the table of a child. -/
noncomputable def kept (db : Database V) (id : V) (root d : DeleteRowInfo) : List (Row V) :=
  if d.setNull then
    (db d.tableName).map fun r => if Affected db id root d r then Function.update r d.fieldName none else r
  else (db d.tableName).filter fun r => ¬ Affected db id root d r

open Classical in
/-- The database after the cascade. -/
structure Cascaded (db : Database V) (id : V) (root : DeleteRowInfo) (db' : Database V) : Prop where
  rootTable : db' root.tableName = (db root.tableName).filter fun r => ¬ Affected db id root root r
  childTables : ∀ l ∈ links root, db' l.2.tableName = kept db id root l.2
  otherTables : ∀ t ∉ tables root, db' t = db t

/-- The root row is there, or no row of a direct child refers to it. -/
def RootHeld (db : Database V) (id : V) (root : DeleteRowInfo) : Prop :=
  (∃ r ∈ db root.tableName, r root.pkName = some id) ∨
    ∀ c ∈ root.childs, ∀ r ∈ db c.tableName, r c.fieldName ≠ some id

/-- Below the children of the direct children, a row refers to a row that holds the id of the root just if it
refers to one that is deleted by the cascade. -/
def Followed (db : Database V) (id : V) (root : DeleteRowInfo) : Prop :=
  ∀ c ∈ root.childs, c.setNull = false → ∀ b ∈ c.childs, ∀ l ∈ links b, ∀ r ∈ db l.2.tableName,
    ((∃ q ∈ db l.1.tableName, q l.1.fieldName = some id ∧ Refers l.2 l.1 r q) ↔
      l.1.setNull = false ∧ ∃ q, Affected db id root l.1 q ∧ Refers l.2 l.1 r q)

/-- Below a child of a direct child there is nothing, where the direct child is not just set to `NULL`. -/
def Shallow (root : DeleteRowInfo) : Prop :=
  ∀ c ∈ root.childs, c.setNull = false → ∀ b ∈ c.childs, b.childs = []

/-! ### Affected rows -/

section Affected

variable {root : DeleteRowInfo} {db : Database V} {id : V}

theorem link_of_affected {p d : DeleteRowInfo} {q : Row V} (hq : Affected db id root p q) (hd : d ∈ p.childs) :
    (p, d) ∈ links root := by
  induction hq generalizing d with
  | root _ _ => exact link_of_child hd
  | child _ _ hc _ _ ih => exact links_trans (ih hc) (link_of_child hd)

variable (h : (tables root).Nodup)

include h

theorem affected_link {l : DeleteRowInfo × DeleteRowInfo} (hl : l ∈ links root) {r : Row V} :
    Affected db id root l.2 r ↔ r ∈ db l.2.tableName ∧ (l.1 = root ∨ l.1.setNull = false) ∧
      ∃ q, Affected db id root l.1 q ∧ Refers l.2 l.1 r q := by
  have hroot : l.2.tableName ≠ root.tableName := ne_root_of_link h hl
  constructor
  · intro hr
    generalize hd : l.2 = d at hr
    cases hr with
    | root _ _ => exact absurd (congrArg DeleteRowInfo.tableName hd) hroot
    | @child p _ q _ hq hp hc hr href =>
        have hm : (p, d) ∈ links root := link_of_affected hq hc
        have he : l = (p, d) := link_unique h hl hm (congrArg DeleteRowInfo.tableName hd)
        rw [he]
        exact ⟨hr, hp, q, hq, href⟩
  · rintro ⟨hr, hp, q, hq, href⟩
    exact .child hq hp (parent_of_link hl).1 hr href

theorem affected_root {r : Row V} :
    Affected db id root root r ↔ r ∈ db root.tableName ∧ r root.pkName = some id := by
  constructor
  · have key : ∀ d, Affected db id root d r → d = root → r ∈ db root.tableName ∧ r root.pkName = some id := by
      intro d hr he
      cases hr with
      | root hr hid => exact ⟨hr, hid⟩
      | child hq _ hc _ _ =>
          have hne : d.tableName ≠ root.tableName := ne_root_of_link h (link_of_affected hq hc)
          exact absurd (congrArg DeleteRowInfo.tableName he) hne
    intro hr
    exact key root hr rfl
  · rintro ⟨hr, hid⟩
    exact .root hr hid

theorem affected_direct {c : DeleteRowInfo} (hc : c ∈ root.childs) {r : Row V} :
    Affected db id root c r ↔
      r ∈ db c.tableName ∧ (∃ q ∈ db root.tableName, q root.pkName = some id) ∧ r c.fieldName = some id := by
  rw [affected_link h (link_of_child hc)]
  constructor
  · rintro ⟨hr, _, q, hq, v, hrv, hqv⟩
    obtain ⟨hq, hid⟩ := (affected_root h).mp hq
    have hv : v = id := Option.some.inj (hqv.symm.trans hid)
    exact ⟨hr, ⟨q, hq, hid⟩, hv ▸ hrv⟩
  · rintro ⟨hr, ⟨q, hq, hid⟩, hrv⟩
    exact ⟨hr, .inl rfl, q, (affected_root h).mpr ⟨hq, hid⟩, id, hrv, hid⟩

theorem affected_of_rootHeld (hroot : RootHeld db id root) {c : DeleteRowInfo} (hc : c ∈ root.childs) {r : Row V}
    (hr : r ∈ db c.tableName) : Affected db id root c r ↔ r c.fieldName = some id := by
  rw [affected_direct h hc]
  constructor
  · intro ha
    exact ha.2.2
  · intro hid
    rcases hroot with hroot | hnone
    · exact ⟨hr, hroot, hid⟩
    · exact absurd hid (hnone c hc r hr)

end Affected

/-! ### The rows the statements pick -/

section Picks

variable [DecidableEq V] {root : DeleteRowInfo} {db : Database V} {id : V}

/-- Each statement picks the rows the cascade affects. -/
def Agrees (db : Database V) (id : V) (root : DeleteRowInfo) : Prop :=
  ∀ v ∈ visited id root, ∀ r ∈ db v.link.2.tableName, v.cond.holds db r = true ↔ Affected db id root v.link.2 r

theorem holds_eq {field : String} {r : Row V} : (Where.eq field id).holds db r = true ↔ r field = some id := by
  rw [Where.holds, decide_eq_true_iff]

variable (h : (tables root).Nodup)

include h

theorem holds_implWhere {l : DeleteRowInfo × DeleteRowInfo} (hl : l ∈ links root) {r : Row V} :
    (implWhere id l.1 l.2).holds db r = true ↔
      ∃ q ∈ db l.1.tableName, q l.1.fieldName = some id ∧ Refers l.2 l.1 r q := by
  have hne : l.2.tableName ≠ l.1.tableName := child_ne_parent h hl
  have hw : implWhere id l.1 l.2 = .inSelect l.2.fieldName l.1.pkName l.1.tableName l.1.fieldName id := by
    simp [implWhere, hne]
  rw [hw, Where.holds, List.any_eq_true]
  apply exists_congr
  intro q
  apply and_congr_right
  intro _
  cases hr : r l.2.fieldName with
  | none => simp [Refers, hr]
  | some v => simp [Refers, hr]

theorem agrees_iff : Agrees db id root ↔ RootHeld db id root ∧ Followed db id root := by
  constructor
  · intro ha
    constructor
    · by_cases hroot : ∃ r ∈ db root.tableName, r root.pkName = some id
      · exact .inl hroot
      · right
        intro c hc r hr hid
        have hv : ⟨(root, c), .eq c.fieldName id⟩ ∈ visited id root := mem_visited.mpr ⟨c, hc, .inr rfl⟩
        have hr' : Affected db id root c r := (ha _ hv r hr).mp (holds_eq.mpr hid)
        exact hroot ((affected_direct h hc).mp hr').2.1
    · intro c hc hn b hb l hl r hr
      have hlc : l ∈ links c := links_of_child hb hl
      have hv : ⟨l, implWhere id l.1 l.2⟩ ∈ visited id root :=
        mem_visited.mpr ⟨c, hc, .inl ⟨hn, l, hlc, rfl⟩⟩
      have hne : l.1 ≠ root := parent_ne_root h hc hlc
      have hpick := ha _ hv r hr
      rw [holds_implWhere h (links_of_child hc hlc), affected_link h (links_of_child hc hlc)] at hpick
      rw [hpick]
      constructor
      · rintro ⟨_, hp, hq⟩
        exact ⟨hp.resolve_left hne, hq⟩
      · rintro ⟨hp, hq⟩
        exact ⟨hr, .inr hp, hq⟩
  · rintro ⟨hroot, hfollow⟩ v hv r hr
    obtain ⟨c, hc, ⟨hn, l, hl, rfl⟩ | rfl⟩ := mem_visited.mp hv
    · rw [holds_implWhere h (links_of_child hc hl), affected_link h (links_of_child hc hl)]
      obtain ⟨b, hb, hl' | rfl⟩ := mem_links.mp hl
      · rw [hfollow c hc hn b hb l hl' r hr]
        constructor
        · rintro ⟨hp, hq⟩
          exact ⟨hr, .inr hp, hq⟩
        · rintro ⟨_, hp, hq⟩
          exact ⟨hp.resolve_left (parent_ne_root h hc hl), hq⟩
      · constructor
        · rintro ⟨q, hq, hid, href⟩
          exact ⟨hr, .inr hn, q, (affected_of_rootHeld h hroot hc hq).mpr hid, href⟩
        · rintro ⟨_, _, q, hq, href⟩
          have hq' : q ∈ db c.tableName := ((affected_direct h hc).mp hq).1
          exact ⟨q, hq', (affected_of_rootHeld h hroot hc hq').mp hq, href⟩
    · rw [holds_eq, affected_of_rootHeld h hroot hc hr]

end Picks

/-! ### The database afterwards -/

section Afterwards

theorem filter_eq_iff {rows : List (Row V)} {p : Row V → Bool} {P : Row V → Prop} [DecidablePred P] :
    (rows.filter fun r => !p r) = (rows.filter fun r => ¬ P r) ↔ ∀ r ∈ rows, p r = true ↔ P r := by
  constructor
  · intro heq r hr
    have hmem : r ∈ (rows.filter fun r => !p r) ↔ r ∈ rows.filter fun r => ¬ P r := by rw [heq]
    simp only [List.mem_filter, hr, true_and, Bool.not_eq_true', decide_eq_true_iff] at hmem
    rw [← Bool.not_eq_false, not_iff_comm, hmem]
  · intro hall
    apply List.filter_congr
    intro r hr
    rw [Bool.eq_iff_iff, decide_eq_true_iff, ← hall r hr, Bool.not_eq_true', Bool.not_eq_true]

theorem map_eq_iff {rows : List (Row V)} {field : String} {p : Row V → Bool} {P : Row V → Prop} [DecidablePred P]
    (hp : ∀ r ∈ rows, p r = true → r field ≠ none) (hP : ∀ r ∈ rows, P r → r field ≠ none) :
    (rows.map fun r => if p r then Function.update r field none else r) =
      (rows.map fun r => if P r then Function.update r field none else r) ↔ ∀ r ∈ rows, p r = true ↔ P r := by
  rw [List.map_inj_left]
  apply forall₂_congr
  intro r hr
  by_cases h1 : p r = true <;> by_cases h2 : P r
  · simp [h1, h2]
  · rw [if_pos h1, if_neg h2]
    have hne : Function.update r field none ≠ r := by
      intro heq
      exact hp r hr h1 (by rw [← heq, Function.update_self])
    exact iff_of_false hne fun hiff => h2 (hiff.mp h1)
  · rw [if_neg h1, if_pos h2]
    have hne : r ≠ Function.update r field none := by
      intro heq
      exact hP r hr h2 (by rw [heq, Function.update_self])
    exact iff_of_false hne fun hiff => h1 (hiff.mpr h2)
  · simp [h1, h2]

variable [DecidableEq V] {root : DeleteRowInfo} {db db' : Database V} {id : V}
  {active : Database V → Statement V → Bool} (h : (tables root).Nodup)

include h

theorem value_ne_null_of_holds {v : Visit V} (hv : v ∈ visited id root) {r : Row V}
    (hr : v.cond.holds db r = true) : r v.link.2.fieldName ≠ none := by
  obtain ⟨c, hc, ⟨_, l, hl, rfl⟩ | rfl⟩ := mem_visited.mp hv
  · obtain ⟨_, _, _, w, hw, _⟩ := (holds_implWhere h (links_of_child hc hl)).mp hr
    simp [hw]
  · simp [holds_eq.mp hr]

omit [DecidableEq V] in
theorem value_ne_null_of_affected {l : DeleteRowInfo × DeleteRowInfo} (hl : l ∈ links root) {r : Row V}
    (hr : Affected db id root l.2 r) : r l.2.fieldName ≠ none := by
  obtain ⟨_, _, _, _, w, hw, _⟩ := (affected_link h hl).mp hr
  simp [hw]

omit [DecidableEq V] in
theorem not_affected_below {c : DeleteRowInfo} (hc : c ∈ root.childs) (hn : c.setNull = true)
    {l : DeleteRowInfo × DeleteRowInfo} (hl : l ∈ links c) (r : Row V) : ¬ Affected db id root l.2 r := by
  intro hr
  generalize hd : l.2 = d at hr
  induction hr generalizing l with
  | root _ _ => exact ne_root_of_link h (links_of_child hc hl) (congrArg DeleteRowInfo.tableName hd)
  | @child p d _ _ hq hp hdc _ _ ih =>
      have he : l = (p, d) := link_unique h (links_of_child hc hl) (link_of_affected hq hdc)
        (congrArg DeleteRowInfo.tableName hd)
      subst he
      have hp' : p.setNull = false := hp.resolve_left (parent_ne_root h hc hl)
      rcases (parent_of_link hl).2 with rfl | ⟨m, hm, he⟩
      · rw [hn] at hp'
        cases hp'
      · exact ih hm he

omit [DecidableEq V] h in
/-- Each link gets a statement, or is below a direct child that is only set to `NULL`. -/
theorem link_cases (id : V) {l : DeleteRowInfo × DeleteRowInfo} (hl : l ∈ links root) :
    (∃ v ∈ visited id root, v.link = l) ∨ ∃ c ∈ root.childs, c.setNull = true ∧ l ∈ links c := by
  obtain ⟨c, hc, hm | rfl⟩ := mem_links.mp hl
  · cases hn : c.setNull
    · exact .inl ⟨_, mem_visited.mpr ⟨c, hc, .inl ⟨hn, l, hm, rfl⟩⟩, rfl⟩
    · exact .inr ⟨c, hc, hn, hm⟩
  · exact .inl ⟨_, mem_visited.mpr ⟨c, hc, .inr rfl⟩, rfl⟩

theorem run_below (hdel : del active id root db = (true, db')) {c : DeleteRowInfo} (hc : c ∈ root.childs)
    (hn : c.setNull = true) {l : DeleteRowInfo × DeleteRowInfo} (hl : l ∈ links c) :
    db' l.2.tableName = db l.2.tableName := by
  have hroot := links_of_child hc hl
  apply run_other hdel
  intro st hst he
  rcases List.mem_append.mp hst with hst | hst
  · obtain ⟨v, hv, rfl⟩ := List.mem_map.mp hst
    rw [Visit.table_statement] at he
    have hlink : v.link = l := link_unique h (link_of_visited hv) hroot he
    obtain ⟨c', hc', ⟨hn', m, hm, rfl⟩ | rfl⟩ := mem_visited.mp hv
    · change m = l at hlink
      subst hlink
      have hcc : c = c' := child_unique h hc hc' (child_mem_tables hl) (child_mem_tables hm)
      rw [hcc, hn'] at hn
      cases hn
    · exact parent_ne_root h hc hl (congrArg Prod.fst hlink).symm
  · rw [List.mem_singleton.mp hst] at he
    exact ne_root_of_link h hroot he.symm

omit [DecidableEq V] in
theorem kept_below {c : DeleteRowInfo} (hc : c ∈ root.childs) (hn : c.setNull = true)
    {l : DeleteRowInfo × DeleteRowInfo} (hl : l ∈ links c) : kept db id root l.2 = db l.2.tableName := by
  have hnone : ∀ r : Row V, ¬ Affected db id root l.2 r := not_affected_below h hc hn hl
  simp [kept, hnone]

open Classical in
theorem visit_iff (hdel : del active id root db = (true, db')) {v : Visit V} (hv : v ∈ visited id root) :
    db' v.link.2.tableName = kept db id root v.link.2 ↔
      ∀ r ∈ db v.link.2.tableName, v.cond.holds db r = true ↔ Affected db id root v.link.2 r := by
  have hl : v.link ∈ links root := link_of_visited hv
  rw [run_visit h hdel hv, Visit.statement, DeleteRowInfo.remove, kept]
  by_cases hn : v.link.2.setNull = true
  · rw [if_pos hn, if_pos hn]
    apply map_eq_iff
    · intro r _ hr
      exact value_ne_null_of_holds h hv hr
    · intro r _ hr
      exact value_ne_null_of_affected h hl hr
  · rw [if_neg hn, if_neg hn]
    exact filter_eq_iff

open Classical in
theorem cascaded_iff (hdel : del active id root db = (true, db')) :
    Cascaded db id root db' ↔ Agrees db id root := by
  constructor
  · intro hcas v hv
    exact (visit_iff h hdel hv).mp (hcas.childTables _ (link_of_visited hv))
  · intro ha
    constructor
    · rw [run_root h hdel, filter_eq_iff]
      intro r hr
      rw [decide_eq_true_iff, affected_root h]
      exact (and_iff_right hr).symm
    · intro l hl
      rcases link_cases id hl with ⟨v, hv, rfl⟩ | ⟨c, hc, hn, hlc⟩
      · exact (visit_iff h hdel hv).mpr (ha v hv)
      · rw [run_below h hdel hc hn hlc, kept_below h hc hn hlc]
    · intro t ht
      apply run_other hdel
      intro st hst he
      apply ht
      rw [← he]
      rcases List.mem_append.mp hst with hst | hst
      · obtain ⟨v, hv, rfl⟩ := List.mem_map.mp hst
        rw [Visit.table_statement]
        exact child_mem_tables (link_of_visited hv)
      · rw [List.mem_singleton.mp hst]
        exact tableName_mem_tables root

end Afterwards

/-! ### Shallow trees -/

section Shallow

variable {root : DeleteRowInfo} (h : (tables root).Nodup)

include h

/-- Below a child of a direct child there may be rows that hold the id of the root and depend on nothing. -/
theorem shallow_iff (id : V) :
    (∀ db : Database V, (∃ r ∈ db root.tableName, r root.pkName = some id) → Followed db id root) ↔ Shallow root := by
  constructor
  · intro hall c hc hn b hb
    by_contra hne
    obtain ⟨e, he⟩ := List.exists_mem_of_ne_nil _ hne
    have hcb : (c, b) ∈ links root := links_of_child hc (link_of_child hb)
    have hbe : (b, e) ∈ links root := links_of_child hc (links_of_child hb (link_of_child he))
    -- the table of `c` is empty, so nothing below it is affected
    let row : Row V := fun _ => some id
    let db : Database V := fun t =>
      if t = root.tableName ∨ t = b.tableName ∨ t = e.tableName then [row] else []
    have hdbc : db c.tableName = [] := by
      apply if_neg
      rintro (ht | ht | ht)
      · exact ne_root_of_link h (link_of_child hc) ht
      · exact tableName_notMem (nodup_child h hc) hb (ht ▸ tableName_mem_tables b)
      · exact tableName_notMem (nodup_child h hc) hb (ht ▸ mem_tables_of_child he (tableName_mem_tables e))
    have hdbr : db root.tableName = [row] := if_pos (.inl rfl)
    have hdbb : db b.tableName = [row] := if_pos (.inr (.inl rfl))
    have hdbe : db e.tableName = [row] := if_pos (.inr (.inr rfl))
    have hpick : ∃ q ∈ db b.tableName, q b.fieldName = some id ∧ Refers e b row q := by
      rw [hdbb]
      exact ⟨row, List.mem_singleton_self _, rfl, id, rfl, rfl⟩
    have hfollow := hall db (hdbr ▸ ⟨row, List.mem_singleton_self _, rfl⟩)
    obtain ⟨_, q, hq, _⟩ := (hfollow c hc hn b hb (b, e) (link_of_child he) row
      (hdbe ▸ List.mem_singleton_self _)).mp hpick
    obtain ⟨_, _, q', hq', _⟩ := (affected_link h hcb).mp hq
    have hmem : q' ∈ db c.tableName := ((affected_direct h hc).mp hq').1
    rw [hdbc] at hmem
    cases hmem
  · intro hs db _ c hc hn b hb l hl
    rw [links_eq, hs c hc hn b hb] at hl
    cases hl

end Shallow

/-! ### The delete and the cascade -/

/-- Over distinct tables, a `del` that returns true leaves what the cascade leaves just if the root row is there,
or nothing refers to it, and the rows below the children of the direct children are followed. On a tree these are
on every database with the root row just if it is shallow. -/
theorem del_cascades [DecidableEq V] {root : DeleteRowInfo} (h : (tables root).Nodup) (id : V) :
    (∀ active db db', del active id root db = (true, db') →
      (Cascaded db id root db' ↔ RootHeld db id root ∧ Followed db id root)) ∧
    ((∀ db : Database V, (∃ r ∈ db root.tableName, r root.pkName = some id) → Followed db id root) ↔
      Shallow root) := by
  constructor
  · intro active db db' hdel
    rw [cascaded_iff h hdel, agrees_iff h]
  · exact shallow_iff h id

/-- A table with the columns `id` and `parent_id`. -/
def plainTable (name : String) : Table := ⟨name, ["id", "parent_id"]⟩

def plainInfo (name : String) (childs : List DeleteRowInfo) : DeleteRowInfo := ⟨false, 1, 0, plainTable name, childs⟩

def plainRow (id parent : ℕ) : Row ℕ := fun c =>
  if c = "id" then some id else if c = "parent_id" then some parent else none

/-- House 1 has room 2, which has shelf 3, which has book 4. -/
def house : Database ℕ := fun t =>
  if t = "house" then [plainRow 1 0]
  else if t = "room" then [plainRow 2 1]
  else if t = "shelf" then [plainRow 3 2]
  else if t = "book" then [plainRow 4 3]
  else []

def roomsOfHouse : DeleteRowInfo := plainInfo "house" [plainInfo "room" [plainInfo "shelf" []]]

def booksOfHouse : DeleteRowInfo := plainInfo "house" [plainInfo "room" [plainInfo "shelf" [plainInfo "book" []]]]

theorem del_cascades_roomsOfHouse :
    Cascaded house 1 roomsOfHouse (del (fun _ _ => true) 1 roomsOfHouse house).2 := by
  have h : (tables roomsOfHouse).Nodup := by decide
  have hroot : ∃ r ∈ house roomsOfHouse.tableName, r roomsOfHouse.pkName = some 1 :=
    ⟨plainRow 1 0, List.mem_singleton_self _, rfl⟩
  have hs : Shallow roomsOfHouse := by
    intro c hc _ b hb
    rw [List.mem_singleton.mp hc] at hb
    rw [List.mem_singleton.mp hb]
    rfl
  have hdel : del (fun _ _ => true) 1 roomsOfHouse house =
    (true, (del (fun _ _ => true) 1 roomsOfHouse house).2) := rfl
  exact ((del_cascades h 1).1 _ house _ hdel).mpr ⟨.inl hroot, (del_cascades h 1).2.mpr hs house hroot⟩

/-- The book is left: no shelf has the id of the house for its room. -/
theorem book_left :
    (tables booksOfHouse).Nodup ∧ (del (fun _ _ => true) 1 booksOfHouse house).1 = true ∧
      ¬ Cascaded house 1 booksOfHouse (del (fun _ _ => true) 1 booksOfHouse house).2 := by
  refine ⟨by decide, rfl, ?_⟩
  intro hcas
  let room : DeleteRowInfo := plainInfo "room" [plainInfo "shelf" [plainInfo "book" []]]
  let shelf : DeleteRowInfo := plainInfo "shelf" [plainInfo "book" []]
  let book : DeleteRowInfo := plainInfo "book" []
  have hhouse : Affected house 1 booksOfHouse booksOfHouse (plainRow 1 0) :=
    .root (List.mem_singleton_self _) rfl
  have hroom : Affected house 1 booksOfHouse room (plainRow 2 1) :=
    .child hhouse (.inl rfl) (List.mem_singleton_self _) (List.mem_singleton_self _) ⟨1, rfl, rfl⟩
  have hshelf : Affected house 1 booksOfHouse shelf (plainRow 3 2) :=
    .child hroom (.inr rfl) (List.mem_singleton_self _) (List.mem_singleton_self _) ⟨2, rfl, rfl⟩
  have hbook : Affected house 1 booksOfHouse book (plainRow 4 3) :=
    .child hshelf (.inr rfl) (List.mem_singleton_self _) (List.mem_singleton_self _) ⟨3, rfl, rfl⟩
  have hlink : (shelf, book) ∈ links booksOfHouse :=
    links_of_child (d := room) (List.mem_singleton_self _)
      (links_of_child (d := shelf) (List.mem_singleton_self _) (link_of_child (List.mem_singleton_self _)))
  have hleft : plainRow 4 3 ∈ (del (fun _ _ => true) 1 booksOfHouse house).2 book.tableName :=
    List.mem_singleton_self _
  have hn : ¬ (shelf, book).2.setNull = true := Bool.false_ne_true
  classical
  rw [hcas.childTables _ hlink, kept, if_neg hn, List.mem_filter, decide_eq_true_iff] at hleft
  exact hleft.2 hbook

end HelpzDb
