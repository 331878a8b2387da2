import Helpz.Net.Fragment
import Helpz.Lib.Decimal
import Helpz.Lib.Interference

/-!
# The files of large messages

A `Fragmented_Message` of a million bytes or more collects its data in a temporary file, which is named after
the time of its creation and its id. The file system is a map from names to contents; several objects, of one
or of several `Protocol` instances, make their calls in any order.

* `fileName`, `fileName_inj`: which objects have the same file;
* `Devices`, `call`: the data devices of all objects, over one file system;
* `Isolated`: what an object reads back is what it reads after its own calls alone;
* `isolated_iff`: an object is isolated exactly when no other one has its file;
* `readBack_eq_private`: then it reads what it would read from a buffer of its own, which is how
  `FragmentedMessage` keeps its data.
-/

namespace HelpzNet

open HelpzLib

/-- The name of the temporary file. -/
def fileName (tempPath : String) (ms : ℤ) (id : UInt8) : String :=
  tempPath ++ "/helpz_net_proto_" ++ ms.repr ++ "_" ++ id.toNat.repr ++ ".dat"

theorem toList_repr (n : ℤ) : n.repr.toList = decimal n := by
  cases n with
  | ofNat n => exact Nat.toList_repr
  | negSucc n => simp [Int.repr, decimal, Nat.toList_repr]

theorem underscore_notMem_repr (n : ℤ) : '_' ∉ n.repr.toList := by
  rw [toList_repr]
  cases n with
  | ofNat n => exact Nat.underscore_not_in_toDigits
  | negSucc n => simp [decimal, Nat.underscore_not_in_toDigits]

theorem repr_injective {m n : ℤ} (h : m.repr.toList = n.repr.toList) : m = n := by
  have hread := congrArg readDecimal h
  rw [toList_repr, toList_repr, readDecimal_decimal, readDecimal_decimal] at hread
  exact Option.some.inj hread

/-- **Objects with one file have one time of creation and one id.** -/
theorem fileName_inj {tempPath : String} {ms ms' : ℤ} {id id' : UInt8}
    (h : fileName tempPath ms id = fileName tempPath ms' id') : ms = ms' ∧ id = id' := by
  have hlist := congrArg String.toList h
  simp only [fileName, String.toList_append, List.append_assoc, List.append_cancel_left_eq] at hlist
  -- the underscore between them is the only one
  have hrest : '_' ∉ id.toNat.repr.toList ++ ".dat".toList := by
    rw [List.mem_append, not_or]
    exact ⟨underscore_notMem_repr id.toNat, by decide⟩
  obtain ⟨hms, _, hid⟩ := (List.append_cons_inj_of_notMem (underscore_notMem_repr ms) hrest).mp hlist
  have hids : (id.toNat : ℤ) = id'.toNat := repr_injective (List.append_cancel_right hid)
  exact ⟨repr_injective hms, UInt8.toNat_inj.mp (Int.natCast_inj.mp hids)⟩

/-- What the constructor is called with, and when. -/
structure Creation where
  ms : ℤ
  id : UInt8
  fullSize : ℕ

/-- The constructor: the file of a large message; a smaller one is kept in memory. -/
def Creation.backing (tempPath : String) (c : Creation) : Option String :=
  if c.fullSize < 1000000 then none else some (fileName tempPath c.ms c.id)

/-- The calls of one object: `open(ReadWrite)` and `close` of its device, `add_data`, the reading of the
whole device by a handler, and the destructor. -/
inductive DeviceCall
  | openReadWrite
  | addData (pos : ℕ) (data : Bytes)
  | readAll
  | close
  | destroy

/-- The file system, the devices of the objects, and what was read from each. -/
structure Devices (ι : Type) where
  files : String → Option Bytes
  buffers : ι → Bytes
  isOpen : ι → Bool
  alive : ι → Bool
  readBack : ι → List Bytes

namespace Devices

variable {ι : Type} [DecidableEq ι]

/-- New objects over a file system. -/
def fresh (files : String → Option Bytes) : Devices ι where
  files := files
  buffers := fun _ => []
  isOpen := fun _ => false
  alive := fun _ => true
  readBack := fun _ => []

/-- The content of a device. A file that is not there is empty. -/
def content (backing : ι → Option String) (w : Devices ι) (x : ι) : Bytes :=
  match backing x with
  | none => w.buffers x
  | some name => (w.files name).getD []

/-- Change the file of an object, if it has one. -/
def onFile (backing : ι → Option String) (w : Devices ι) (x : ι) (f : Option Bytes → Option Bytes) : Devices ι :=
  match backing x with
  | none => w
  | some name => { w with files := Function.update w.files name (f (w.files name)) }

/-- Change what a device holds. What is written to a file that was removed is lost. -/
def modify (backing : ι → Option String) (w : Devices ι) (x : ι) (f : Bytes → Bytes) : Devices ι :=
  match backing x with
  | none => { w with buffers := Function.update w.buffers x (f (w.buffers x)) }
  | some _ => w.onFile backing x (Option.map f)

/-- One call of one object. `open(ReadWrite)` makes a file that is not there, and does not truncate it; a
device that is open is not opened again, and one that is closed is neither written nor read. The destructor
closes the device and removes the file. -/
def call (backing : ι → Option String) (w : Devices ι) : ι × DeviceCall → Devices ι
  | (x, .openReadWrite) =>
      if w.alive x && !w.isOpen x then
        { w.onFile backing x (fun d => some (d.getD [])) with isOpen := Function.update w.isOpen x true }
      else w
  | (x, .addData pos data) => if w.isOpen x then w.modify backing x fun d => writeAt 0 d pos data else w
  | (x, .readAll) =>
      let r := if w.isOpen x then w.content backing x else []
      { w with readBack := Function.update w.readBack x (w.readBack x ++ [r]) }
  | (x, .close) => { w with isOpen := Function.update w.isOpen x false }
  | (x, .destroy) =>
      if w.alive x then
        { w.onFile backing x (fun _ => none) with
          isOpen := Function.update w.isOpen x false
          alive := Function.update w.alive x false }
      else w

/-- What an object reads back depends on its own calls only. -/
def Isolated (backing : ι → Option String) (x : ι) : Prop :=
  ∀ (w : Devices ι) (calls : List (ι × DeviceCall)),
    (calls.foldl (call backing) w).readBack x = ((own x calls).foldl (call backing) w).readBack x

/-- The two states are the same as far as object `x` can see. -/
structure SameFor (backing : ι → Option String) (x : ι) (w w' : Devices ι) : Prop where
  buffer : w.buffers x = w'.buffers x
  isOpen : w.isOpen x = w'.isOpen x
  alive : w.alive x = w'.alive x
  readBack : w.readBack x = w'.readBack x
  file : ∀ name, backing x = some name → w.files name = w'.files name

variable {backing : ι → Option String} {w w' : Devices ι} {x y : ι}

omit [DecidableEq ι] in
theorem SameFor.refl (backing : ι → Option String) (x : ι) (w : Devices ι) : SameFor backing x w w :=
  ⟨rfl, rfl, rfl, rfl, fun _ _ => rfl⟩

omit [DecidableEq ι] in
theorem SameFor.content_eq (h : SameFor backing x w w') : w.content backing x = w'.content backing x := by
  unfold content
  cases hb : backing x with
  | none => exact h.buffer
  | some name => simp only [h.file name hb]

omit [DecidableEq ι] in
theorem SameFor.onFile (h : SameFor backing x w w') (f : Option Bytes → Option Bytes) :
    SameFor backing x (w.onFile backing x f) (w'.onFile backing x f) := by
  unfold Devices.onFile
  cases hb : backing x with
  | none => exact h
  | some name =>
      refine ⟨h.buffer, h.isOpen, h.alive, h.readBack, fun name' hn => ?_⟩
      obtain rfl := Option.some.inj (hb.symm.trans hn)
      simp only [Function.update_self, h.file name hb]

theorem SameFor.modify (h : SameFor backing x w w') (f : Bytes → Bytes) :
    SameFor backing x (w.modify backing x f) (w'.modify backing x f) := by
  unfold Devices.modify
  cases hb : backing x with
  | none => exact ⟨by simp only [Function.update_self, h.buffer], h.isOpen, h.alive, h.readBack, h.file⟩
  | some name => exact h.onFile _

theorem SameFor.call_own (h : SameFor backing x w w') (c : DeviceCall) :
    SameFor backing x (w.call backing (x, c)) (w'.call backing (x, c)) := by
  cases c with
  | openReadWrite =>
      simp only [call, h.alive, h.isOpen]
      split_ifs
      · obtain ⟨h1, _, h3, h4, h5⟩ := h.onFile fun d => some (d.getD [])
        exact ⟨h1, by simp only [Function.update_self], h3, h4, h5⟩
      · exact h
  | addData pos data =>
      simp only [call, h.isOpen]
      split_ifs
      · exact h.modify _
      · exact h
  | readAll =>
      simp only [call, h.isOpen, h.content_eq]
      exact ⟨h.buffer, h.isOpen, h.alive, by simp only [Function.update_self, h.readBack], h.file⟩
  | close => exact ⟨h.buffer, by simp only [call, Function.update_self], h.alive, h.readBack, h.file⟩
  | destroy =>
      simp only [call, h.alive]
      split_ifs
      · obtain ⟨h1, _, _, h4, h5⟩ := h.onFile fun _ => none
        exact ⟨h1, by simp only [Function.update_self], by simp only [Function.update_self], h4, h5⟩
      · exact h

omit [DecidableEq ι] in
theorem SameFor.onFile_other (h : SameFor backing x w w')
    (hfile : ∀ name, backing x = some name → backing y ≠ some name) (f : Option Bytes → Option Bytes) :
    SameFor backing x (w.onFile backing y f) w' := by
  unfold Devices.onFile
  cases hb : backing y with
  | none => exact h
  | some name =>
      refine ⟨h.buffer, h.isOpen, h.alive, h.readBack, fun name' hn => ?_⟩
      have hne : name' ≠ name := by
        rintro rfl
        exact hfile name' hn hb
      rw [← h.file name' hn]
      exact Function.update_of_ne hne _ _

theorem SameFor.call_other (h : SameFor backing x w w') (hy : y ≠ x)
    (hfile : ∀ name, backing x = some name → backing y ≠ some name) (c : DeviceCall) :
    SameFor backing x (w.call backing (y, c)) w' := by
  have hupd : ∀ {β : Type} (f : ι → β) (b : β), Function.update f y b x = f x := fun f b =>
    Function.update_of_ne hy.symm b f
  cases c with
  | openReadWrite =>
      simp only [call]
      split_ifs
      · obtain ⟨h1, h2, h3, h4, h5⟩ := h.onFile_other hfile fun d => some (d.getD [])
        exact ⟨h1, (hupd _ _).trans h.isOpen, h3, h4, h5⟩
      · exact h
  | addData pos data =>
      simp only [call]
      split_ifs
      · unfold Devices.modify
        cases hb : backing y with
        | none => exact ⟨(hupd _ _).trans h.buffer, h.isOpen, h.alive, h.readBack, h.file⟩
        | some name => exact h.onFile_other hfile _
      · exact h
  | readAll => exact ⟨h.buffer, h.isOpen, h.alive, (hupd _ _).trans h.readBack, h.file⟩
  | close => exact ⟨h.buffer, (hupd _ _).trans h.isOpen, h.alive, h.readBack, h.file⟩
  | destroy =>
      simp only [call]
      split_ifs
      · obtain ⟨h1, _, _, h4, h5⟩ := h.onFile_other hfile fun _ => none
        exact ⟨h1, (hupd _ _).trans h.isOpen, (hupd _ _).trans h.alive, h4, h5⟩
      · exact h

/-- **Objects with files of their own are isolated.** -/
theorem isolated_of_ne (hfile : ∀ y, y ≠ x → ∀ name, backing x = some name → backing y ≠ some name) :
    Isolated backing x := fun w calls =>
  (foldl_own (R := SameFor backing x) (fun _ _ c h => h.call_own c)
    (fun _ _ y c hy h => h.call_other hy (hfile y hy) c) (SameFor.refl backing x w) calls).readBack

/-- What object `y` does to the file of object `x`. -/
def removal (x y : ι) : List (ι × DeviceCall) :=
  [(x, .openReadWrite), (x, .addData 0 [1]), (x, .close), (y, .destroy), (x, .openReadWrite), (x, .readAll)]

/-- **An object with the file of another one is not isolated**: the other one removes it. -/
theorem not_isolated_of_eq (hy : y ≠ x) {name : String} (hbx : backing x = some name)
    (hby : backing y = some name) : ¬ Isolated backing x := by
  intro h
  have hread := h (fresh fun _ => none) (removal x y)
  have hall : ((removal x y).foldl (call backing) (fresh fun _ => none)).readBack x = [[]] := by
    simp [removal, call, onFile, modify, content, fresh, hbx, hby, hy.symm]
  have hown : ((own x (removal x y)).foldl (call backing) (fresh fun _ => none)).readBack x = [[1]] := by
    simp [removal, own, call, onFile, modify, content, fresh, hbx, hy, writeAt]
  rw [hall, hown] at hread
  cases hread

end Devices

/-- Both objects have a file, and it is the same. -/
def Creation.SameFile (c c' : Creation) : Prop :=
  1000000 ≤ c.fullSize ∧ 1000000 ≤ c'.fullSize ∧ c.ms = c'.ms ∧ c.id = c'.id

theorem Creation.sameFile_iff (tempPath : String) (c c' : Creation) :
    c.SameFile c' ↔ ∃ name, c.backing tempPath = some name ∧ c'.backing tempPath = some name := by
  unfold Creation.SameFile Creation.backing
  constructor
  · rintro ⟨h1, h2, hms, hid⟩
    refine ⟨fileName tempPath c.ms c.id, if_neg (not_lt.mpr h1), ?_⟩
    rw [if_neg (not_lt.mpr h2), hms, hid]
  · rintro ⟨name, h1, h2⟩
    split_ifs at h1 h2 with hs hs'
    obtain ⟨hms, hid⟩ := fileName_inj ((Option.some.inj h1).trans (Option.some.inj h2).symm)
    exact ⟨not_lt.mp hs, not_lt.mp hs', hms, hid⟩

/-- **Isolation of large transfers.** Whatever the objects do in whatever order, what one reads back depends on
its own calls only, exactly when no other object with a file was created in the same millisecond with the same
id. -/
theorem isolated_iff {ι : Type} [DecidableEq ι] (tempPath : String) (made : ι → Creation) (x : ι) :
    Devices.Isolated (fun y => (made y).backing tempPath) x ↔ ∀ y, y ≠ x → ¬ (made x).SameFile (made y) := by
  constructor
  · intro h y hy hsame
    obtain ⟨name, hx, hy'⟩ := ((made x).sameFile_iff tempPath (made y)).mp hsame
    exact Devices.not_isolated_of_eq hy hx hy' h
  · intro h
    refine Devices.isolated_of_ne fun y hy name hx hy' => h y hy ?_
    exact ((made x).sameFile_iff tempPath (made y)).mpr ⟨name, hx, hy'⟩

/-- Two clients start a transfer of a million bytes under id 5 in the same millisecond. -/
theorem not_isolated_sameMillisecond : ¬ ∀ (tempPath : String) (made : Bool → Creation) (x : Bool),
    Devices.Isolated (fun y => (made y).backing tempPath) x := by
  intro h
  let c : Creation := ⟨1600000000000, 5, 1000000⟩
  have hname : c.backing "/tmp" = some (fileName "/tmp" 1600000000000 5) := rfl
  exact Devices.not_isolated_of_eq (x := false) (y := true) nofun hname hname (h "/tmp" (fun _ => c) false)

/-! ## Memory of its own -/

namespace Devices

variable {ι : Type} [DecidableEq ι] {backing : ι → Option String} {w v : Devices ι}

/-- No two objects have the same file. -/
def Distinct (backing : ι → Option String) : Prop :=
  ∀ x y name, x ≠ y → backing x = some name → backing y ≠ some name

/-- The devices `w` over files hold what the buffers `v` do. -/
structure Private (backing : ι → Option String) (w v : Devices ι) : Prop where
  isOpen : w.isOpen = v.isOpen
  alive : w.alive = v.alive
  readBack : w.readBack = v.readBack
  open_alive : ∀ x, v.isOpen x = true → v.alive x = true
  there : ∀ x name, backing x = some name → v.isOpen x = true → (w.files name).isSome = true
  content : ∀ x, v.alive x = true → w.content backing x = v.content (fun _ => none) x

section OnFile

variable {x y : ι} (f : Option Bytes → Option Bytes)

omit [DecidableEq ι]

@[simp] theorem isOpen_onFile : (w.onFile backing y f).isOpen = w.isOpen := by
  unfold onFile
  cases backing y <;> rfl

@[simp] theorem alive_onFile : (w.onFile backing y f).alive = w.alive := by
  unfold onFile
  cases backing y <;> rfl

@[simp] theorem readBack_onFile : (w.onFile backing y f).readBack = w.readBack := by
  unfold onFile
  cases backing y <;> rfl

theorem files_onFile_self {name : String} (hy : backing y = some name) :
    (w.onFile backing y f).files name = f (w.files name) := by
  unfold onFile
  rw [hy]
  exact Function.update_self _ _ _

theorem files_onFile_of_ne (hd : Distinct backing) (hxy : x ≠ y) {name : String} (hx : backing x = some name) :
    (w.onFile backing y f).files name = w.files name := by
  unfold onFile
  cases hy : backing y with
  | none => rfl
  | some name' =>
      refine Function.update_of_ne ?_ _ _
      rintro rfl
      exact hd x y name hxy hx hy

theorem content_onFile_self {name : String} (hy : backing y = some name) :
    (w.onFile backing y f).content backing y = (f (w.files name)).getD [] := by
  simp only [content, hy, files_onFile_self f hy]

theorem content_onFile_of_ne (hd : Distinct backing) (hxy : x ≠ y) :
    (w.onFile backing y f).content backing x = w.content backing x := by
  unfold content
  cases hx : backing x with
  | none =>
      unfold onFile
      cases backing y <;> rfl
  | some name => simp only [files_onFile_of_ne f hd hxy hx]

end OnFile

section Modify

variable {x y : ι} (f : Bytes → Bytes)

@[simp] theorem isOpen_modify : (w.modify backing y f).isOpen = w.isOpen := by
  unfold modify
  cases backing y with
  | none => rfl
  | some name => exact isOpen_onFile _

@[simp] theorem alive_modify : (w.modify backing y f).alive = w.alive := by
  unfold modify
  cases backing y with
  | none => rfl
  | some name => exact alive_onFile _

@[simp] theorem readBack_modify : (w.modify backing y f).readBack = w.readBack := by
  unfold modify
  cases backing y with
  | none => rfl
  | some name => exact readBack_onFile _

theorem content_modify_self (h : ∀ name, backing y = some name → (w.files name).isSome = true) :
    (w.modify backing y f).content backing y = f (w.content backing y) := by
  unfold modify
  cases hy : backing y with
  | none => simp only [content, hy, Function.update_self]
  | some name =>
      obtain ⟨d, hd⟩ := Option.isSome_iff_exists.mp (h name hy)
      simp only [content, hy, files_onFile_self _ hy, hd]
      rfl

theorem content_modify_of_ne (hd : Distinct backing) (hxy : x ≠ y) :
    (w.modify backing y f).content backing x = w.content backing x := by
  unfold modify
  cases hy : backing y with
  | none =>
      unfold content
      cases backing x with
      | none => exact Function.update_of_ne hxy _ _
      | some name => rfl
  | some name => exact content_onFile_of_ne _ hd hxy

theorem isSome_files_modify (hd : Distinct backing) {name : String} (hx : backing x = some name)
    (h : (w.files name).isSome = true) : ((w.modify backing y f).files name).isSome = true := by
  unfold modify
  cases hy : backing y with
  | none => exact h
  | some name' =>
      by_cases hxy : x = y
      · subst hxy
        rw [files_onFile_self _ hx, Option.isSome_map]
        exact h
      · rw [files_onFile_of_ne _ hd hxy hx]
        exact h

end Modify

omit [DecidableEq ι] in
theorem distinct_none : Distinct (fun _ : ι => none) := fun _ _ _ _ h => (nomatch h)

theorem Private.openReadWrite (h : Private backing w v) (hd : Distinct backing) (y : ι) :
    Private backing (w.call backing (y, .openReadWrite)) (v.call (fun _ => none) (y, .openReadWrite)) := by
  simp only [call, h.isOpen, h.alive]
  split_ifs with hc
  · rw [Bool.and_eq_true] at hc
    refine ⟨rfl, (alive_onFile _).trans h.alive, (readBack_onFile _).trans h.readBack, fun x hx => ?_,
      fun x name hb hx => ?_, fun x hx => ?_⟩
    · by_cases hxy : x = y
      · exact hxy ▸ hc.1
      · exact h.open_alive x ((Function.update_of_ne hxy _ _).symm.trans hx)
    · change ((w.onFile backing y fun d => some (d.getD [])).files name).isSome = true
      by_cases hxy : x = y
      · subst hxy
        rw [files_onFile_self _ hb]
        rfl
      · rw [files_onFile_of_ne _ hd hxy hb]
        exact h.there x name hb ((Function.update_of_ne hxy _ _).symm.trans hx)
    · change (w.onFile backing y fun d => some (d.getD [])).content backing x = v.content (fun _ => none) x
      rw [← h.content x hx]
      by_cases hxy : x = y
      · subst hxy
        cases hb : backing x with
        | none => simp only [Devices.onFile, hb]
        | some name =>
            rw [content_onFile_self _ hb, Devices.content, hb]
            rfl
      · exact content_onFile_of_ne _ hd hxy
  · exact h

theorem Private.addData (h : Private backing w v) (hd : Distinct backing) (y : ι) (pos : ℕ) (data : Bytes) :
    Private backing (w.call backing (y, .addData pos data)) (v.call (fun _ => none) (y, .addData pos data)) := by
  simp only [call, h.isOpen]
  split_ifs with hopen
  · refine ⟨by simpa using h.isOpen, by simpa using h.alive, by simpa using h.readBack, by simpa using h.open_alive,
      fun x name hb hx => ?_, fun x hx => ?_⟩
    · rw [isOpen_modify] at hx
      exact isSome_files_modify _ hd hb (h.there x name hb hx)
    · rw [alive_modify] at hx
      by_cases hxy : x = y
      · subst hxy
        have hnone : ∀ name, (fun _ : ι => none) x = some name → (v.files name).isSome = true := fun _ hb => by
          cases hb
        rw [content_modify_self _ fun name hb => h.there x name hb hopen, content_modify_self _ hnone, h.content x hx]
      · rw [content_modify_of_ne _ hd hxy, content_modify_of_ne _ distinct_none hxy]
        exact h.content x hx
  · exact h

theorem Private.readAll (h : Private backing w v) (y : ι) :
    Private backing (w.call backing (y, .readAll)) (v.call (fun _ => none) (y, .readAll)) := by
  refine ⟨h.isOpen, h.alive, ?_, h.open_alive, h.there, h.content⟩
  simp only [call, h.isOpen, h.readBack]
  split_ifs with hopen
  · rw [h.content y (h.open_alive y hopen)]
  · rfl

theorem Private.close (h : Private backing w v) (y : ι) :
    Private backing (w.call backing (y, .close)) (v.call (fun _ => none) (y, .close)) := by
  have hopen : ∀ x, Function.update v.isOpen y false x = true → v.isOpen x = true := by
    intro x hx
    by_cases hxy : x = y
    · subst hxy
      rw [Function.update_self] at hx
      cases hx
    · rwa [Function.update_of_ne hxy] at hx
  refine ⟨by simp only [call, h.isOpen], h.alive, h.readBack, fun x hx => h.open_alive x (hopen x hx),
    fun x name hb hx => h.there x name hb (hopen x hx), h.content⟩

theorem Private.destroy (h : Private backing w v) (hd : Distinct backing) (y : ι) :
    Private backing (w.call backing (y, .destroy)) (v.call (fun _ => none) (y, .destroy)) := by
  have hother : ∀ (f : ι → Bool) x, Function.update f y false x = true → x ≠ y ∧ f x = true := by
    intro f x hx
    by_cases hxy : x = y
    · subst hxy
      rw [Function.update_self] at hx
      cases hx
    · exact ⟨hxy, by rwa [Function.update_of_ne hxy] at hx⟩
  simp only [call, h.alive, h.isOpen]
  split_ifs
  · refine ⟨rfl, rfl, (readBack_onFile _).trans h.readBack, fun x hx => ?_, fun x name hb hx => ?_, fun x hx => ?_⟩
    · obtain ⟨hxy, hx⟩ := hother v.isOpen x hx
      exact (Function.update_of_ne hxy _ _).trans (h.open_alive x hx)
    · obtain ⟨hxy, hx⟩ := hother v.isOpen x hx
      change ((w.onFile backing y fun _ => none).files name).isSome = true
      rw [files_onFile_of_ne _ hd hxy hb]
      exact h.there x name hb hx
    · obtain ⟨hxy, hx⟩ := hother v.alive x hx
      change (w.onFile backing y fun _ => none).content backing x = v.content (fun _ => none) x
      rw [content_onFile_of_ne _ hd hxy]
      exact h.content x hx
  · exact h

/-- **With files of their own the objects might as well keep their data in memory**, as `FragmentedMessage`
does: if no file is there at the start, each reads back what it would read from a buffer. -/
theorem readBack_eq_private (hd : Distinct backing) {files : String → Option Bytes}
    (hfree : ∀ x name, backing x = some name → files name = none) (calls : List (ι × DeviceCall)) :
    (calls.foldl (call backing) (fresh files)).readBack =
      (calls.foldl (call fun _ => none) (fresh files)).readBack := by
  have hstart : Private backing (fresh files) (fresh files : Devices ι) := by
    refine ⟨rfl, rfl, rfl, fun _ h => (nomatch h), fun _ _ _ h => (nomatch h), fun x _ => ?_⟩
    unfold content
    cases hb : backing x with
    | none => rfl
    | some name =>
        simp only [fresh, hfree x name hb]
        rfl
  refine (List.foldl_rel (r := Private backing) hstart fun c _ w v h => ?_).readBack
  obtain ⟨y, c⟩ := c
  cases c with
  | openReadWrite => exact h.openReadWrite hd y
  | addData pos data => exact h.addData hd y pos data
  | readAll => exact h.readAll y
  | close => exact h.close y
  | destroy => exact h.destroy hd y

end Devices

end HelpzNet
