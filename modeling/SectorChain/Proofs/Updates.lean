import SectorChain.Volume
import SectorChain.Proofs.Disk

/-!
# What a failing operation leaves in memory

An operation that is lent something has it changed only when nothing can fail any more, or hands it
on to an operation of this kind. So a caller has in hand after a failure what was lent: the buffer
of a read, the position of an open file, a free map, a table of slots.

* `AllOrNothing x s`: lent `s`, the operation leaves it as it is if it fails.

Results:
* `AllOrNothing.run_eq`: then all that it does is told by what it does with a value of one's own.
* `fill_allOrNothing`, `readOn_allOrNothing`, `writeOn_allOrNothing`: open files.
* `deallocate_allOrNothing`, `addEntry_allOrNothing`, `removeEntry_allOrNothing`: free maps and
  directories.
* `addFile_allOrNothing`, `closeFile_allOrNothing`: tables of open files.
* `openById_allOrNothing`, `readById_allOrNothing`, `writeById_allOrNothing`,
  `seekById_allOrNothing`, `closeById_allOrNothing`: volumes.
-/

namespace SectorChain

open UpdateM (lent put within beside)

variable {σ τ α β : Type} {s : σ}

/-- **The operation leaves `s` as it is if it fails**, on every drive. -/
def AllOrNothing (x : UpdateM σ α) (s : σ) : Prop :=
  ∀ d e s' d', x (s, d) = .error e (s', d') → s' = s

namespace UpdateM

variable {x : DriveM α} {d d' : Drive}

theorem lift_ok {a : α} (h : x d = .ok a d') :
    (liftM x : UpdateM σ α) (s, d) = .ok a (s, d') := by
  show onDrive x (s, d) = _
  unfold onDrive
  dsimp only
  rw [h]

theorem lift_error {e : VolumeError} (h : x d = .error e d') :
    (liftM x : UpdateM σ α) (s, d) = .error e (s, d') := by
  show onDrive x (s, d) = _
  unfold onDrive
  dsimp only
  rw [h]

end UpdateM

namespace AllOrNothing

variable {x : UpdateM σ α} {f : α → UpdateM σ β}

theorem throw (e : VolumeError) : AllOrNothing (throw e : UpdateM σ α) s := by
  rintro d e' s' d' ⟨⟩
  rfl

theorem pure (a : α) : AllOrNothing (pure a : UpdateM σ α) s := by
  rintro d e s' d' ⟨⟩

theorem put (s' : σ) : AllOrNothing (put s') s := by
  rintro d e s'' d' ⟨⟩

/-- What was lent may be looked at. -/
theorem lent {f : σ → UpdateM σ β} (hf : AllOrNothing (f s) s) : AllOrNothing (lent >>= f) s := hf

/-- An operation on the drive does not touch it. -/
theorem lift (x : DriveM α) : AllOrNothing (liftM x : UpdateM σ α) s := by
  intro d e s' d' h
  cases hx : x d with
  | ok a d₁ => cases (UpdateM.lift_ok hx).symm.trans h
  | error e₁ d₁ =>
    cases (UpdateM.lift_error hx).symm.trans h
    rfl

/-- So the operation behind one on the drive decides; it begins with an answer that was given. -/
theorem after {x : DriveM α} {f : α → UpdateM σ β}
    (hf : ∀ a, (∃ d d', x d = .ok a d') → AllOrNothing (f a) s) :
    AllOrNothing ((liftM x : UpdateM σ α) >>= f) s := by
  intro d e s' d' h
  cases hx : x d with
  | ok a d₁ =>
    rw [run_bind_ok (UpdateM.lift_ok hx)] at h
    exact hf a ⟨d, d₁, hx⟩ d₁ e s' d' h
  | error e₁ d₁ =>
    rw [run_bind_error (UpdateM.lift_error hx)] at h
    cases h
    rfl

/-- What cannot fail may follow. -/
theorem before (hx : AllOrNothing x s) (hf : ∀ a p, ∃ b p', f a p = .ok b p') :
    AllOrNothing (x >>= f) s := by
  rintro d e s' d' h
  cases hrun : x (s, d) with
  | ok a p =>
    obtain ⟨b, p', hok⟩ := hf a p
    rw [run_bind_ok hrun, hok] at h
    cases h
  | error e₁ p =>
    rw [run_bind_error hrun] at h
    cases h
    exact hx d e s' d' hrun

/-- A part is left as it is by an operation that leaves that part, if the whole is the same when the
part goes back to its place. -/
theorem within {part : σ → τ} {back : σ → τ → σ} {x : UpdateM τ α} (hx : AllOrNothing x (part s))
    (hback : back s (part s) = s) : AllOrNothing (within part back x) s := by
  intro d e s' d' h
  unfold UpdateM.within at h
  dsimp only at h
  cases hrun : x (part s, d) with
  | ok a p =>
    rw [hrun] at h
    cases h
  | error e₁ p =>
    rw [hrun] at h
    cases h
    rw [hx d e p.1 p.2 hrun, hback]

theorem beside {t : τ} {x : UpdateM (σ × τ) α} (hx : AllOrNothing x (s, t)) :
    AllOrNothing (beside t x) s := by
  intro d e s' d' h
  unfold UpdateM.beside at h
  dsimp only at h
  cases hrun : x ((s, t), d) with
  | ok a p =>
    rw [hrun] at h
    cases h
  | error e₁ p =>
    rw [hrun] at h
    cases h
    exact congrArg Prod.fst (hx d e p.1 p.2 hrun)

end AllOrNothing

/-- How an operation ends that was lent `s`, given how it ends with `s` as a value of one's own. -/
def returned (s : σ) : EStateM.Result VolumeError Drive (α × σ) →
    EStateM.Result VolumeError (σ × Drive) α
  | .ok (a, s') d => .ok a (s', d)
  | .error e d => .error e (s, d)

/-- **All or nothing**: what the operation does with a value of one's own tells everything. -/
theorem AllOrNothing.run_eq {x : UpdateM σ α} (hx : AllOrNothing x s) (d : Drive) :
    x (s, d) = returned s (x.on s d) := by
  unfold UpdateM.on
  cases hrun : x (s, d) with
  | ok a p => rfl
  | error e p =>
    obtain rfl := hx d e p.1 p.2 hrun
    rfl

theorem AllOrNothing.error {x : UpdateM σ α} (hx : AllOrNothing x s) {d d' : Drive} {s' : σ}
    {e : VolumeError} (h : x (s, d) = .error e (s', d')) : x.on s d = .error e d' ∧ s' = s := by
  obtain rfl := hx d e s' d' h
  unfold UpdateM.on
  rw [h]
  exact ⟨rfl, rfl⟩

/-- The same for an operation that answers nothing else than the new value. -/
def replaced (s : σ) : EStateM.Result VolumeError Drive σ →
    EStateM.Result VolumeError (σ × Drive) Unit
  | .ok s' d => .ok () (s', d)
  | .error e d => .error e (s, d)

theorem AllOrNothing.run_replaced {x : UpdateM σ Unit} (hx : AllOrNothing x s) (d : Drive) :
    x (s, d) = replaced s ((do return (← x.on s).2 : DriveM σ) d) := by
  rw [hx.run_eq]
  cases hrun : x.on s d with
  | ok p d' => rw [run_bind_ok hrun]; rfl
  | error e d' => rw [run_bind_error hrun]; rfl

/-! ## Open files -/

namespace Handle

theorem fill_allOrNothing (f : Handle) (pos : Nat) (buffer : Bytes) :
    AllOrNothing (f.fill pos) buffer :=
  .lent <| .after fun _ _ => .before (.put _) fun _ _ => ⟨_, _, rfl⟩

theorem readOn_allOrNothing (f : Handle) (buffer : Bytes) : AllOrNothing readOn (f, buffer) :=
  .lent <| .before (.within (f.fill_allOrNothing _ buffer) rfl) fun _ _ => ⟨_, _, rfl⟩

theorem writeOn_allOrNothing (f : Handle) (bytes : Bytes) : AllOrNothing (writeOn bytes) f :=
  .lent <| .after fun _ _ => .before (.put _) fun _ _ => ⟨_, _, rfl⟩

end Handle

/-! ## Free maps and directories -/

theorem Header.deallocate_allOrNothing (h : Header) (m : FreeMap) :
    AllOrNothing h.deallocate m := by
  refine .after fun chain _ => .lent ?_
  split
  · exact .lift _
  · exact .after fun _ _ => .put _

namespace Directory

theorem fillSlot_allOrNothing (path name : String) (kind : Kind) (sector : Nat) (dir : Directory) :
    AllOrNothing (fillSlot path name kind sector) dir := by
  refine .lent ?_
  split
  · exact .throw _
  · split
    · exact .throw _
    · exact .before (.put _) fun _ _ => ⟨_, _, rfl⟩

theorem clearSlot_allOrNothing (path name : String) (dir : Directory) :
    AllOrNothing (clearSlot path name) dir := by
  refine .lent ?_
  split
  · exact .throw _
  · exact .before (.put _) fun _ _ => ⟨_, _, rfl⟩

/-- **A change along a route** leaves the table that it starts from as it is if it fails, as the
change of the last table does. -/
theorem changeAlong_allOrNothing (path : String) {edit : String → UpdateM Directory Unit}
    (hedit : ∀ name dir, AllOrNothing (edit name) dir) (r : Route) (dir : Directory) :
    AllOrNothing (changeAlong path edit r) dir := by
  cases r with
  | invalid rest => exact .throw _
  | last name => exact hedit name dir
  | step name rest =>
    exact .lent <| .after fun _ _ => .after fun _ _ => .after fun _ _ => .lift _

theorem addEntry_allOrNothing (path : String) (kind : Kind) (sector : Nat) (dir : Directory) :
    AllOrNothing (addEntry path kind sector) dir :=
  changeAlong_allOrNothing path (fun name => fillSlot_allOrNothing path name kind sector) _ dir

theorem removeEntry_allOrNothing (path : String) (dir : Directory) :
    AllOrNothing (removeEntry path) dir :=
  changeAlong_allOrNothing path (clearSlot_allOrNothing path) _ dir

end Directory

/-! ## Tables of open files -/

namespace HandleTable

theorem addFile_allOrNothing (f : Handle) (t : HandleTable) : AllOrNothing (addFile f) t := by
  refine .lent ?_
  split
  · exact .before (.put _) fun _ _ => ⟨_, _, rfl⟩
  · exact .throw _

theorem closeFile_allOrNothing (id : Nat) (t : HandleTable) : AllOrNothing (closeFile id) t := by
  refine .lent ?_
  split
  · exact .put _
  · exact .after fun _ _ => .throw _

/-- What is found under an id goes back to its place. -/
theorem set_of_fetch {t : HandleTable} {id : Nat} {f : Handle}
    (h : ∃ d d', t.fetch id d = .ok f d') : t.set id (some f) = t := by
  obtain ⟨d, d', h⟩ := h
  unfold fetch at h
  cases hget : t.get? id with
  | none =>
    rw [hget] at h
    cases h
  | some g =>
    rw [hget] at h
    cases h
    obtain ⟨hlt, hslot⟩ := List.getElem?_eq_some_iff.mp (Option.join_eq_some_iff.mp hget)
    unfold set
    rw [← hslot, List.set_getElem_self]

end HandleTable

/-! ## Volumes -/

namespace Volume

theorem setOpen_of_fetch {v : Volume} {id : Nat} {f : Handle}
    (h : ∃ d d', v.openFiles.fetch id d = .ok f d') : v.setOpen id f = v := by
  unfold setOpen
  rw [HandleTable.set_of_fetch h]

theorem openById_allOrNothing (path : String) (v : Volume) : AllOrNothing (openById path) v :=
  .lent <| .after fun f _ => .before (.within (HandleTable.addFile_allOrNothing f _) rfl)
    fun _ _ => ⟨_, _, rfl⟩

theorem readById_allOrNothing (id : Nat) (v : Volume) (buffer : Bytes) :
    AllOrNothing (readById id) (v, buffer) := by
  refine .lent <| .after fun f hf => .within (f.readOn_allOrNothing buffer) ?_
  dsimp only
  rw [setOpen_of_fetch hf]

theorem writeById_allOrNothing (id : Nat) (bytes : Bytes) (v : Volume) :
    AllOrNothing (writeById id bytes) v :=
  .lent <| .after fun f hf => .within (f.writeOn_allOrNothing bytes) (setOpen_of_fetch hf)

theorem seekById_allOrNothing (id position : Nat) (v : Volume) :
    AllOrNothing (seekById id position) v := .lent <| .after fun _ _ => .put _

theorem closeById_allOrNothing (id : Nat) (v : Volume) : AllOrNothing (closeById id) v :=
  .within (HandleTable.closeFile_allOrNothing id _) rfl

end Volume

end SectorChain
