import Helpz.Db.DeleteRow
import Mathlib.Data.List.Nodup
import Mathlib.Data.List.Pairwise
import Mathlib.Data.List.Lattice
import Mathlib.Data.List.Flatten

/-!
# The statements of a delete

* `links`, `tables`: the children of a tree with their parents, in the order of `del_impl`, and their tables;
* `statements`, `del_eq`: `del` as one list of statements, `visited` giving each with its child;
* `links_pairwise`, `statements_blind`: over distinct tables no statement reads or writes a table that an earlier
  one writes, so each finds the rows there were at first (`run_statement`).
-/

namespace HelpzDb

open HelpzLib

mutual

/-- Each child below a node, with its parent, in the order of `del_impl`. -/
def links : DeleteRowInfo → List (DeleteRowInfo × DeleteRowInfo)
  | ⟨setNull, fieldI, pkI, table, childs⟩ => linksOf ⟨setNull, fieldI, pkI, table, childs⟩ childs

def linksOf (parent : DeleteRowInfo) : List DeleteRowInfo → List (DeleteRowInfo × DeleteRowInfo)
  | [] => []
  | d :: childs => links d ++ (parent, d) :: linksOf parent childs

end

/-- The tables of a node and of all below it. -/
def tables (p : DeleteRowInfo) : List String := (links p).map (fun l => l.2.tableName) ++ [p.tableName]

theorem linksOf_eq (p : DeleteRowInfo) (childs : List DeleteRowInfo) :
    linksOf p childs = childs.flatMap fun d => links d ++ [(p, d)] := by
  induction childs with
  | nil => rfl
  | cons d childs ih => rw [linksOf, ih, List.flatMap_cons, List.append_assoc, List.singleton_append]

theorem links_eq (p : DeleteRowInfo) : links p = p.childs.flatMap fun d => links d ++ [(p, d)] := by
  cases p
  rw [links, linksOf_eq]

theorem tables_eq (p : DeleteRowInfo) : tables p = p.childs.flatMap tables ++ [p.tableName] := by
  rw [tables, links_eq, List.map_flatMap]
  simp only [List.map_append, List.map_cons, List.map_nil]
  rfl

theorem mem_links {p : DeleteRowInfo} {l : DeleteRowInfo × DeleteRowInfo} :
    l ∈ links p ↔ ∃ d ∈ p.childs, l ∈ links d ∨ l = (p, d) := by
  rw [links_eq]
  simp only [List.mem_flatMap, List.mem_append, List.mem_singleton]

/-! ### Tables of a tree -/

theorem tableName_mem_tables (p : DeleteRowInfo) : p.tableName ∈ tables p :=
  List.mem_append_right _ (List.mem_singleton_self _)

theorem mem_tables_of_child {p d : DeleteRowInfo} (hd : d ∈ p.childs) {t : String} (ht : t ∈ tables d) :
    t ∈ tables p := by
  rw [tables_eq]
  exact List.mem_append_left _ (List.mem_flatMap.mpr ⟨d, hd, ht⟩)

theorem child_mem_tables {p : DeleteRowInfo} {l : DeleteRowInfo × DeleteRowInfo} (hl : l ∈ links p) :
    l.2.tableName ∈ tables p :=
  List.mem_append_left _ (List.mem_map_of_mem hl)

theorem parent_mem_tables {p : DeleteRowInfo} {l : DeleteRowInfo × DeleteRowInfo} (hl : l ∈ links p) :
    l.1.tableName ∈ tables p := by
  induction p using DeleteRowInfo.induct with
  | step p ih =>
      obtain ⟨d, hd, h | h⟩ := mem_links.mp hl
      · exact mem_tables_of_child hd (ih d hd h)
      · rw [h]
        exact tableName_mem_tables p

theorem link_of_child {p d : DeleteRowInfo} (hd : d ∈ p.childs) : (p, d) ∈ links p :=
  mem_links.mpr ⟨d, hd, .inr rfl⟩

theorem links_of_child {p d : DeleteRowInfo} (hd : d ∈ p.childs) {l : DeleteRowInfo × DeleteRowInfo}
    (hl : l ∈ links d) : l ∈ links p :=
  mem_links.mpr ⟨d, hd, .inl hl⟩

theorem links_trans {p : DeleteRowInfo} {l m : DeleteRowInfo × DeleteRowInfo} (hl : l ∈ links p)
    (hm : m ∈ links l.2) : m ∈ links p := by
  induction p using DeleteRowInfo.induct with
  | step p ih =>
      obtain ⟨d, hd, h | h⟩ := mem_links.mp hl
      · exact links_of_child hd (ih d hd h)
      · subst h
        exact links_of_child hd hm

theorem parent_of_link {p : DeleteRowInfo} {l : DeleteRowInfo × DeleteRowInfo} (hl : l ∈ links p) :
    l.2 ∈ l.1.childs ∧ (l.1 = p ∨ ∃ m ∈ links p, m.2 = l.1) := by
  induction p using DeleteRowInfo.induct with
  | step p ih =>
      obtain ⟨d, hd, h | h⟩ := mem_links.mp hl
      · obtain ⟨hc, hp | ⟨m, hm, hp⟩⟩ := ih d hd h
        · exact ⟨hc, .inr ⟨(p, d), link_of_child hd, hp.symm⟩⟩
        · exact ⟨hc, .inr ⟨m, links_of_child hd hm, hp⟩⟩
      · subst h
        exact ⟨hd, .inl rfl⟩

/-! ### Trees over distinct tables -/

section Distinct

variable {p : DeleteRowInfo} (h : (tables p).Nodup)

include h

theorem nodup_child {d : DeleteRowInfo} (hd : d ∈ p.childs) : (tables d).Nodup := by
  rw [tables_eq] at h
  exact (List.nodup_flatMap.mp (List.nodup_append.mp h).1).1 d hd

theorem tableName_notMem {d : DeleteRowInfo} (hd : d ∈ p.childs) : p.tableName ∉ tables d := by
  rw [tables_eq] at h
  intro ht
  exact (List.nodup_append.mp h).2.2 _ (List.mem_flatMap.mpr ⟨d, hd, ht⟩) _ (List.mem_singleton_self _) rfl

theorem childs_disjoint : p.childs.Pairwise fun c d => List.Disjoint (tables c) (tables d) := by
  rw [tables_eq] at h
  exact (List.nodup_flatMap.mp (List.nodup_append.mp h).1).2

theorem child_unique {c d : DeleteRowInfo} (hc : c ∈ p.childs) (hd : d ∈ p.childs) {t : String}
    (htc : t ∈ tables c) (htd : t ∈ tables d) : c = d := by
  by_contra hne
  have hsymm : Std.Symm fun c d : DeleteRowInfo => List.Disjoint (tables c) (tables d) := ⟨fun _ _ h => h.symm⟩
  exact (childs_disjoint h).forall hc hd hne htc htd

theorem ne_root_of_link {l : DeleteRowInfo × DeleteRowInfo} (hl : l ∈ links p) : l.2.tableName ≠ p.tableName := by
  obtain ⟨d, hd, hm⟩ := mem_links.mp hl
  intro he
  apply tableName_notMem h hd
  rw [← he]
  rcases hm with hm | hm
  · exact child_mem_tables hm
  · rw [hm]
    exact tableName_mem_tables d

theorem parent_ne_root {c : DeleteRowInfo} (hc : c ∈ p.childs) {l : DeleteRowInfo × DeleteRowInfo}
    (hl : l ∈ links c) : l.1 ≠ p := by
  intro he
  exact tableName_notMem h hc (he ▸ parent_mem_tables hl)

omit h in
theorem child_ne_parent {p : DeleteRowInfo} (h : (tables p).Nodup) {l : DeleteRowInfo × DeleteRowInfo}
    (hl : l ∈ links p) : l.2.tableName ≠ l.1.tableName := by
  induction p using DeleteRowInfo.induct with
  | step p ih =>
      obtain ⟨d, hd, hm | rfl⟩ := mem_links.mp hl
      · exact ih d hd (nodup_child h hd) hm
      · exact ne_root_of_link h hl

theorem link_unique {l m : DeleteRowInfo × DeleteRowInfo} (hl : l ∈ links p) (hm : m ∈ links p)
    (he : l.2.tableName = m.2.tableName) : l = m :=
  List.inj_on_of_nodup_map (List.nodup_append.mp h).1 hl hm he

omit h in
theorem links_pairwise (p : DeleteRowInfo) (h : (tables p).Nodup) :
    (links p).Pairwise fun l m => l.2.tableName ≠ m.2.tableName ∧ l.2.tableName ≠ m.1.tableName := by
  induction p using DeleteRowInfo.induct with
  | step p ih =>
      have hin : ∀ d, ∀ l ∈ links d ++ [(p, d)], l.2.tableName ∈ tables d := by
        intro d l hl
        rcases List.mem_append.mp hl with hl | hl
        · exact child_mem_tables hl
        · rw [List.mem_singleton.mp hl]
          exact tableName_mem_tables d
      rw [links_eq, List.pairwise_flatMap]
      constructor
      · intro d hd
        rw [List.pairwise_append]
        refine ⟨ih d hd (nodup_child h hd), List.pairwise_singleton _ _, ?_⟩
        intro l hl m hm
        rw [List.mem_singleton.mp hm]
        constructor
        · exact ne_root_of_link (nodup_child h hd) hl
        · exact ne_root_of_link h (links_of_child hd hl)
      · apply (childs_disjoint h).imp_of_mem
        intro c d hc hd hcd l hl m hm
        have hlc : l.2.tableName ∈ tables c := hin c l hl
        constructor
        · intro he
          exact hcd hlc (he ▸ hin d m hm)
        · intro he
          rcases List.mem_append.mp hm with hm | hm
          · exact hcd hlc (he ▸ parent_mem_tables hm)
          · rw [List.mem_singleton.mp hm] at he
            exact tableName_notMem h hc (he ▸ hlc)

end Distinct

/-! ### `del` as a list of statements -/

section Statements

variable {V : Type}

/-- A child with its parent, and the condition of its statement. -/
structure Visit (V : Type) where
  link : DeleteRowInfo × DeleteRowInfo
  cond : Where V

def Visit.statement (v : Visit V) : Statement V := v.link.2.remove v.cond

/-- What `del_impl` visits below a node. -/
def visitedBelow (id : V) (p : DeleteRowInfo) : List (Visit V) :=
  (links p).map fun l => ⟨l, implWhere id l.1 l.2⟩

/-- What `del` visits for a child of the root: only the child itself, where its field is set to `NULL`. -/
def visitedAt (id : V) (root d : DeleteRowInfo) : List (Visit V) :=
  (if d.setNull then [] else visitedBelow id d) ++ [⟨(root, d), .eq d.fieldName id⟩]

def visited (id : V) (root : DeleteRowInfo) : List (Visit V) := root.childs.flatMap (visitedAt id root)

def statements (id : V) (root : DeleteRowInfo) : List (Statement V) :=
  (visited id root).map Visit.statement ++ [.del root.tableName (.eq root.pkName id)]

@[simp] theorem Visit.table_statement (v : Visit V) : v.statement.table = v.link.2.tableName := by
  rw [Visit.statement, DeleteRowInfo.remove]
  split <;> rfl

@[simp] theorem Visit.cond_statement (v : Visit V) : v.statement.cond = v.cond := by
  rw [Visit.statement, DeleteRowInfo.remove]
  split <;> rfl

theorem mem_visited {id : V} {root : DeleteRowInfo} {v : Visit V} :
    v ∈ visited id root ↔ ∃ c ∈ root.childs,
      (c.setNull = false ∧ ∃ l ∈ links c, v = ⟨l, implWhere id l.1 l.2⟩) ∨ v = ⟨(root, c), .eq c.fieldName id⟩ := by
  simp only [visited, visitedAt, List.mem_flatMap, List.mem_append, List.mem_singleton]
  apply exists_congr
  intro c
  apply and_congr_right
  intro _
  apply or_congr_left
  cases c.setNull
  · simp [visitedBelow, eq_comm]
  · simp

theorem visited_sublist (id : V) (root : DeleteRowInfo) :
    ((visited id root).map Visit.link).Sublist (links root) := by
  rw [visited, links_eq]
  induction root.childs with
  | nil => exact List.Sublist.refl _
  | cons c childs ih =>
      rw [List.flatMap_cons, List.flatMap_cons, List.map_append]
      apply List.Sublist.append _ ih
      rw [visitedAt, List.map_append, List.map_singleton]
      apply List.Sublist.append _ (List.Sublist.refl _)
      split
      · exact List.nil_sublist _
      · rw [visitedBelow, List.map_map]
        exact (List.map_id _).symm ▸ List.Sublist.refl _

theorem link_of_visited {id : V} {root : DeleteRowInfo} {v : Visit V} (hv : v ∈ visited id root) :
    v.link ∈ links root :=
  (visited_sublist id root).subset (List.mem_map_of_mem hv)

theorem reads_of_visited {id : V} {root : DeleteRowInfo} {v : Visit V} (hv : v ∈ visited id root) {t : String}
    (ht : v.cond.reads = some t) : t = v.link.1.tableName := by
  obtain ⟨c, _, ⟨_, l, _, rfl⟩ | rfl⟩ := mem_visited.mp hv
  · simp only [implWhere] at ht
    split at ht
    · cases ht
    · exact (Option.some.inj ht).symm
  · cases ht

variable [DecidableEq V]

/-- Statements one after another, until one fails. -/
def execAll (active : Database V → Statement V → Bool) (sts : List (Statement V)) (db : Database V) :
    Except (Database V) (Database V) :=
  sts.foldlM (exec active) db

theorem execAll_append (active : Database V → Statement V → Bool) (xs ys : List (Statement V)) (db : Database V) :
    execAll active (xs ++ ys) db = execAll active xs db >>= execAll active ys := by
  rw [execAll, List.foldlM_append]
  rfl

theorem execAll_singleton (active : Database V → Statement V → Bool) (st : Statement V) (db : Database V) :
    execAll active [st] db = exec active db st := by
  rw [execAll, List.foldlM_cons]
  exact bind_pure _

theorem run_of_execAll {active : Database V → Statement V → Bool} {sts : List (Statement V)} {db db' : Database V}
    (h : execAll active sts db = .ok db') : db' = Update.run db (sts.map Statement.toUpdate) := by
  induction sts generalizing db with
  | nil =>
      cases h
      rfl
  | cons st sts ih =>
      rw [execAll, List.foldlM_cons, exec] at h
      split at h
      · cases h
      · exact ih h

theorem delImpl_eq (active : Database V → Statement V → Bool) (id : V) (p : DeleteRowInfo) (db : Database V) :
    delImpl active id p db = execAll active ((visitedBelow id p).map Visit.statement) db := by
  induction p using DeleteRowInfo.induct generalizing db with
  | step p ih =>
      have hloop : ∀ childs : List DeleteRowInfo, (∀ c ∈ childs, c ∈ p.childs) → ∀ db,
          delImplChilds active id p childs db = execAll active (((linksOf p childs).map fun l =>
            (⟨l, implWhere id l.1 l.2⟩ : Visit V)).map Visit.statement) db := by
        intro childs
        induction childs with
        | nil => intro _ db; rfl
        | cons d childs ihc =>
            intro hc db
            rw [delImplChilds, ih d (hc d List.mem_cons_self), linksOf, List.map_append, List.map_append, List.map_cons,
              List.map_cons, execAll_append]
            congr 1
            funext db
            rw [← List.singleton_append, execAll_append, execAll_singleton]
            congr 1
            funext db
            exact ihc (fun c h => hc c (List.mem_cons_of_mem _ h)) db
      cases p
      rw [delImpl, visitedBelow, links]
      exact hloop _ (fun _ h => h) db

theorem delChild_eq (active : Database V → Statement V → Bool) (id : V) (root d : DeleteRowInfo) (db : Database V) :
    delChild active id d db = execAll active ((visitedAt id root d).map Visit.statement) db := by
  rw [delChild, visitedAt]
  by_cases hn : d.setNull = true
  · rw [if_pos hn, if_pos hn, List.nil_append, List.map_singleton, execAll_singleton, Visit.statement,
      DeleteRowInfo.remove, if_pos hn]
  · rw [if_neg hn, if_neg hn, List.map_append, List.map_singleton, execAll_append, delImpl_eq]
    congr 1
    funext db
    rw [execAll_singleton, Visit.statement, DeleteRowInfo.remove, if_neg hn]

theorem delChilds_eq (active : Database V → Statement V → Bool) (id : V) (root : DeleteRowInfo)
    (childs : List DeleteRowInfo) (db : Database V) :
    delChilds active id childs db =
      execAll active ((childs.flatMap (visitedAt id root)).map Visit.statement) db := by
  induction childs generalizing db with
  | nil => rfl
  | cons d childs ih =>
      rw [delChilds, delChild_eq active id root, List.flatMap_cons, List.map_append, execAll_append]
      congr 1
      funext db
      exact ih db

/-- `del` as one list of statements. -/
theorem del_eq (active : Database V → Statement V → Bool) (id : V) (root : DeleteRowInfo) (db : Database V) :
    del active id root db =
      match execAll active (statements id root) db with
      | .ok db => (true, db)
      | .error db => (false, db) := by
  have hlast : execAll active [Statement.del root.tableName (.eq root.pkName id)] =
      fun db => exec active db (.del root.tableName (.eq root.pkName id)) := by
    funext db
    exact execAll_singleton active _ db
  rw [del, delChilds_eq active id root, statements, execAll_append, hlast]
  rfl

/-! ### Over distinct tables -/

variable {root : DeleteRowInfo} (h : (tables root).Nodup)

include h

theorem statements_blind (id : V) :
    ((statements id root).map Statement.toUpdate).Pairwise Update.Blind := by
  rw [List.pairwise_map, statements, List.pairwise_append]
  refine ⟨?_, List.pairwise_singleton _ _, ?_⟩
  · have hlinks := List.pairwise_map.mp ((links_pairwise root h).sublist (visited_sublist id root))
    rw [List.pairwise_map]
    apply hlinks.imp_of_mem
    intro a b _ hb hab
    apply Statement.blind
    · rw [Visit.table_statement, Visit.table_statement]
      exact hab.1
    · rw [Visit.table_statement, Visit.cond_statement]
      intro hr
      exact hab.2 (reads_of_visited hb hr)
  · intro a ha b hb
    obtain ⟨v, hv, rfl⟩ := List.mem_map.mp ha
    rw [List.mem_singleton.mp hb]
    apply Statement.blind
    · rw [Visit.table_statement]
      exact ne_root_of_link h (link_of_visited hv)
    · intro hr
      cases hr

variable {active : Database V → Statement V → Bool} {id : V} {db db' : Database V}

omit h in
theorem run_of_del (hdel : del active id root db = (true, db')) :
    db' = Update.run db ((statements id root).map Statement.toUpdate) := by
  rw [del_eq] at hdel
  cases hrun : execAll active (statements id root) db with
  | error e =>
      rw [hrun] at hdel
      cases hdel
  | ok e =>
      rw [hrun] at hdel
      cases hdel
      exact run_of_execAll hrun

theorem run_statement (hdel : del active id root db = (true, db')) {st : Statement V}
    (hst : st ∈ statements id root) : db' st.table = st.toUpdate.value db := by
  rw [run_of_del hdel, ← Statement.key_toUpdate]
  exact Update.run_key (statements_blind h id) (List.mem_map_of_mem hst) db

omit h in
theorem run_other (hdel : del active id root db = (true, db')) {t : String}
    (ht : ∀ st ∈ statements id root, st.table ≠ t) : db' t = db t := by
  rw [run_of_del hdel]
  apply Update.run_of_forall_ne
  intro u hu
  obtain ⟨st, hst, rfl⟩ := List.mem_map.mp hu
  rw [Statement.key_toUpdate]
  exact ht st hst

theorem run_root (hdel : del active id root db = (true, db')) :
    db' root.tableName = (db root.tableName).filter fun r => !decide (r root.pkName = some id) :=
  run_statement h hdel (List.mem_append_right _ (List.mem_singleton_self _))

theorem run_visit (hdel : del active id root db = (true, db')) {v : Visit V} (hv : v ∈ visited id root) :
    db' v.link.2.tableName = v.statement.toUpdate.value db := by
  rw [← Visit.table_statement]
  exact run_statement h hdel (List.mem_append_left _ (List.mem_map_of_mem hv))

end Statements

end HelpzDb
