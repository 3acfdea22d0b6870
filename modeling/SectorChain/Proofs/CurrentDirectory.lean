import SectorChain.Shell.Console
import SectorChain.Proofs.DamagedTrees
import SectorChain.Proofs.ListedPaths
import SectorChain.Proofs.Resolving
import SectorChain.Proofs.Updates

/-!
# The current directory of a shell

A shell begins in the root. What it calls the current directory is always a path in normal form,
since only paths that were resolved get there: a command to go to a directory puts one there if it
names a directory, and formatting goes back to the root. All other commands, and all that fail,
leave it as it is.

* `Stays x`: an operation that leaves the current directory as it is, also if it fails.
* `Session.call`, `Session.Reached`: one command, and runs of commands.
* `Session.Travels`: what a command does to the current directory.

Results:
* `execute_stays`, `cd_cases`, `format_cases`: the commands one by one.
* `call_travels`: one command.
* `Reached.normal`: the current directory in a run.
* `normal_directory`: the laws of resolving, and runs.
-/

namespace SectorChain

/-! ## Looking twice -/

theorem Volume.stat_settles (k : Disk) (v : Volume) (path : String) : Settles (v.stat path) k := by
  have hread : ∀ sector kind, Settles (do
      let header ← Header.fetch sector
      return { sector, kind, length := header.length, chain := ← header.chain } :
        DriveM FileStat) k := fun sector kind => (Header.fetch_settles k sector).bind fun h => by
    rcases k.chain_cases h with ⟨l, hl⟩ | hfail
    · exact (Settles.ofYields hl.chain_yields).bind fun _ => Settles.pure _
    · exact .inr hfail.bind
  refine (Directory.fetch_settles k v.rootFile).bind fun root => ?_
  dsimp only
  split
  · exact (Settles.pure _).bind fun p => hread p.1 p.2
  · exact (root.findEntry_settles k path).bind fun e => (e.header_settles k path).bind fun s =>
      (Settles.pure _).bind fun p => hread p.1 p.2

/-- Without faults, an operation that only reads answers the same when it is asked again. -/
theorem Settles.again {α : Type} {x : DriveM α} {d d' : Drive} {a : α} (h : Settles x d.disk)
    (hd : d.FaultFree) (hrun : x d = .ok a d') : ∃ d'', x d' = .ok a d'' := by
  obtain ⟨r, hy⟩ : ∃ r, Yields x d.disk r d.disk := by
    rcases h with ⟨b, hy⟩ | ⟨e, hy, -⟩
    · exact ⟨_, hy⟩
    · exact ⟨_, hy⟩
  obtain ⟨d₁, h₁, hd₁, hk₁⟩ := hy d hd rfl
  obtain ⟨rfl, rfl⟩ := ended_eq_ok (h₁.symm.trans hrun)
  obtain ⟨d₂, h₂, -⟩ := hy d₁ hd₁ hk₁
  exact ⟨d₂, h₂⟩

namespace Shell

/-- The session that an operation leaves. -/
def sessionAfter {α : Type} : EStateM.Result ShellError Session α → Session
  | .ok _ s => s
  | .error _ s => s

/-- **The operation stays in the current directory**, whether it answers or fails. -/
def Stays {α : Type} (x : ShellM α) : Prop := ∀ s, (sessionAfter (x s)).cwd = s.cwd

namespace Stays

variable {α β γ : Type} {x : ShellM α} {f : α → ShellM β}

theorem pure (a : α) : Stays (Pure.pure a) := fun _ => rfl

theorem bind (hx : Stays x) (hf : ∀ a, Stays (f a)) : Stays (x >>= f) := by
  intro s
  have hx := hx s
  show (sessionAfter (EStateM.bind x f s)).cwd = _
  unfold EStateM.bind
  cases h : x s with
  | error e s' =>
    rw [h] at hx
    exact hx
  | ok a s' =>
    rw [h] at hx
    exact (hf a s').trans hx

theorem get : Stays (MonadState.get : ShellM Session) := fun _ => rfl

theorem print (pieces : List Piece) : Stays (Session.print pieces) := fun _ => rfl

theorem resolve (path : String) : Stays (Session.resolve path) := fun _ => rfl

theorem use (x : Volume → DriveM α) : Stays (Session.use x) := by
  intro s
  unfold Session.use
  cases x s.volume s.drive <;> rfl

theorem update (x : UpdateM Volume α) : Stays (Session.update x) := by
  intro s
  unfold Session.update
  cases x (s.volume, s.drive) <;> rfl

theorem forM {g : γ → ShellM Unit} (h : ∀ c, Stays (g c)) (l : List γ) : Stays (l.forM g) := by
  induction l with
  | nil => exact pure _
  | cons c rest ih => exact (h c).bind fun _ => ih

end Stays

namespace Session

/-- The command can go to another directory if it succeeds. -/
def Moves (answer : Except String Bool) : Command → Prop
  | .cd _ => True
  | .format => answer = .ok true
  | _ => False

theorem execute_stays {answer : Except String Bool} {c : Command} (h : ¬Moves answer c) :
    Stays (execute answer c) := by
  cases c with
  | help => exact (Stays.print _).bind fun _ => Stays.print _
  | ls path recursive =>
    have hlist : ∀ target, Stays (do
        let lines ← use (·.list target recursive)
        if lines.isEmpty then print [.colored .gray "(empty)"]
        lines.forM fun line => print [listingPiece line]) := fun target =>
      (Stays.use _).bind fun lines => by
        dsimp only
        split
        · exact (Stays.print _).bind fun _ => Stays.forM (fun _ => Stays.print _) _
        · exact Stays.forM (fun _ => Stays.print _) _
    cases path with
    | some p => exact (Stays.resolve p).bind hlist
    | none => exact Stays.get.bind fun _ => (Stays.pure _).bind hlist
  | pwd => exact Stays.get.bind fun _ => Stays.print _
  | cd path => exact absurd trivial h
  | mkdir path =>
    exact (Stays.resolve path).bind fun _ => (Stays.use _).bind fun _ => Stays.print _
  | create path size =>
    exact (Stays.resolve path).bind fun _ => (Stays.use _).bind fun _ => Stays.print _
  | rm path recursive =>
    exact (Stays.resolve path).bind fun _ => (Stays.use _).bind fun _ => Stays.print _
  | cat path =>
    exact (Stays.resolve path).bind fun _ => (Stays.use _).bind fun _ => Stays.print _
  | write path offset text =>
    exact (Stays.resolve path).bind fun _ => (Stays.use _).bind fun _ => Stays.print _
  | stat path =>
    exact (Stays.resolve path).bind fun _ => (Stays.use _).bind fun _ => Stays.print _
  | print => exact (Stays.use _).bind fun _ _ => rfl
  | df => exact Stays.get.bind fun _ => (Stays.use _).bind fun _ => Stays.print _
  | openFile path =>
    exact (Stays.resolve path).bind fun _ => (Stays.update _).bind fun _ => Stays.print _
  | close id => exact (Stays.update _).bind fun _ => Stays.print _
  | fread id count =>
    exact (Stays.use _).bind fun _ => (Stays.update _).bind fun _ =>
      (Stays.print _).bind fun _ => Stays.print _
  | fwrite id text => exact (Stays.update _).bind fun _ => Stays.print _
  | fseek id position => exact (Stays.update _).bind fun _ => Stays.print _
  | files =>
    refine Stays.get.bind fun s => ?_
    dsimp only
    split
    · exact (Stays.print _).bind fun _ => Stays.forM (fun _ => Stays.print _) _
    · exact Stays.forM (fun _ => Stays.print _) _
  | format =>
    cases answer with
    | error message =>
      have hno : ∀ s, execute (.error message) .format s = .error (.dialog message) s :=
        fun _ => rfl
      exact fun s => congrArg (fun r => (sessionAfter r).cwd) (hno s)
    | ok yes =>
      cases yes with
      | true => exact absurd rfl h
      | false => exact Stays.print [.colored .yellow "Format cancelled."]
  | exit => exact Stays.print _

section

variable {α : Type} {x : Volume → DriveM α} {s : Session} {d : Drive}

theorem use_ok {a : α} (h : x s.volume s.drive = .ok a d) :
    use x s = .ok a { s with drive := d } := by
  unfold use
  rw [h]

theorem use_error {e : VolumeError} (h : x s.volume s.drive = .error e d) :
    use x s = .error (.volume e) { s with drive := d } := by
  unfold use
  rw [h]

variable {x : UpdateM Volume α} {v : Volume}

theorem update_ok {a : α} (h : x (s.volume, s.drive) = .ok a (v, d)) :
    update x s = .ok a { s with volume := v, drive := d } := by
  unfold update
  rw [h]

theorem update_error {e : VolumeError} (h : x (s.volume, s.drive) = .error e (v, d)) :
    update x s = .error (.volume e) { s with volume := v, drive := d } := by
  unfold update
  rw [h]

end

/-- Going to what is seen to be a directory. -/
theorem cd_ok (answer : Except String Bool) {path : String} {s : Session} {stat : FileStat}
    {d : Drive} (hstat : s.volume.stat (Path.resolve s.cwd path) s.drive = .ok stat d)
    (hkind : stat.kind = .directory) : ∃ s', execute answer (.cd path) s = .ok () s' ∧
      s'.drive = d ∧ s'.volume = s.volume ∧ s'.cwd = Path.resolve s.cwd path := by
  have htarget : resolve path s = .ok (Path.resolve s.cwd path) s := rfl
  have huse := use_ok (x := (·.stat (Path.resolve s.cwd path))) hstat
  have hrun : execute answer (.cd path) s = _ := (run_bind_ok htarget).trans (run_bind_ok huse)
  rw [if_pos hkind] at hrun
  exact ⟨_, hrun, rfl, rfl, rfl⟩

/-- **Going to another directory** fails, or leads to what the argument means there; that is a
directory. -/
theorem cd_cases (answer : Except String Bool) (path : String) (s : Session) :
    (∃ e s', execute answer (.cd path) s = .error e s' ∧ s'.cwd = s.cwd) ∨
      ∃ stat s', execute answer (.cd path) s = .ok () s' ∧
        s.volume.stat (Path.resolve s.cwd path) s.drive = .ok stat s'.drive ∧
        stat.kind = .directory ∧ s'.volume = s.volume ∧ s'.cwd = Path.resolve s.cwd path := by
  have htarget : resolve path s = .ok (Path.resolve s.cwd path) s := rfl
  cases hstat : s.volume.stat (Path.resolve s.cwd path) s.drive with
  | error e d =>
    have huse := use_error (x := (·.stat (Path.resolve s.cwd path))) hstat
    exact .inl ⟨_, _, (run_bind_ok htarget).trans (run_bind_error huse), rfl⟩
  | ok stat d =>
    by_cases hkind : stat.kind = .directory
    · obtain ⟨s', hrun, rfl, hv, hcwd⟩ := cd_ok answer hstat hkind
      exact .inr ⟨stat, s', hrun, rfl, hkind, hv, hcwd⟩
    · have huse := use_ok (x := (·.stat (Path.resolve s.cwd path))) hstat
      have hrun : execute answer (.cd path) s = _ := (run_bind_ok htarget).trans (run_bind_ok huse)
      rw [if_neg hkind] at hrun
      exact .inl ⟨_, _, hrun, rfl⟩

/-- **Formatting** after a yes fails, or leads to the root. -/
theorem format_cases (s : Session) :
    (∃ e s', execute (.ok true) .format s = .error e s' ∧ s'.cwd = s.cwd) ∨
      ∃ s', execute (.ok true) .format s = .ok () s' ∧ s'.cwd = "/" := by
  let s₁ : Session := { s with printed := s.printed ++ [.plain "💾 Formatting virtual disk..."] ++
    [.plain "\n"] }
  have hprint : print [.plain "💾 Formatting virtual disk..."] s = .ok () s₁ := rfl
  have hyes : confirm (.ok true) s = .ok true s := rfl
  have hstart : execute (.ok true) .format s = _ := (run_bind_ok hyes).trans (run_bind_ok hprint)
  cases hformat : Volume.format s₁.drive with
  | error e d =>
    have hupdate := update_error (s := s₁)
      (run_bind_error (f := UpdateM.put) (UpdateM.lift_error hformat))
    exact .inl ⟨_, _, hstart.trans (run_bind_error hupdate), rfl⟩
  | ok v d =>
    have hupdate := update_ok (s := s₁)
      ((run_bind_ok (f := UpdateM.put) (UpdateM.lift_ok hformat)).trans rfl)
    exact .inr ⟨_, hstart.trans (run_bind_ok hupdate), rfl⟩

/-! ## Runs of commands -/

/-- **One command**: how it ends, and the session then. -/
def call (s : Session) (answer : Except String Bool) (c : Command) :
    Except ShellError Unit × Session :=
  match execute answer c s with
  | .ok () s' => (.ok (), s')
  | .error e s' => (.error e, s')

/-- **The sessions of a run**: commands one after the other, whether they succeed or fail, with any
answers. Between them, what was printed may be taken away. -/
inductive Reached (start : Session) : Session → Prop
  | start : Reached start start
  | call {s : Session} (h : Reached start s) (answer : Except String Bool) (c : Command) :
      Reached start (s.call answer c).2
  | quiet {s : Session} (h : Reached start s) : Reached start s.quiet

/-- **What a command does to the current directory**, if it ends as `r` in the session `s'`. -/
structure Travels (s : Session) (answer : Except String Bool) (c : Command)
    (r : Except ShellError Unit) (s' : Session) : Prop where
  /-- A failing command leaves it as it is. -/
  failed : ∀ e, r = .error e → s'.cwd = s.cwd
  /-- What a successful `cd` leads to was seen to be a directory, and is seen to be one again on
  every device without faults. -/
  cd : ∀ path, c = .cd path → r = .ok () → s'.cwd = Path.resolve s.cwd path ∧
    ∃ stat, s.volume.stat s'.cwd s.drive = .ok stat s'.drive ∧ stat.kind = .directory ∧
      (s.drive.FaultFree → ∃ d, s'.volume.stat s'.cwd s'.drive = .ok stat d)
  /-- A successful format that was answered with yes leads to the root. -/
  format : c = .format → answer = .ok true → r = .ok () → s'.cwd = "/"
  /-- Nothing else changes it. -/
  only : s'.cwd ≠ s.cwd →
    r = .ok () ∧ ((∃ path, c = .cd path) ∨ c = .format ∧ answer = .ok true)

theorem call_eq_ok {s s' : Session} {answer : Except String Bool} {c : Command}
    (h : execute answer c s = .ok () s') : s.call answer c = (.ok (), s') := by
  unfold call
  rw [h]

theorem call_eq_error {s s' : Session} {answer : Except String Bool} {c : Command} {e : ShellError}
    (h : execute answer c s = .error e s') : s.call answer c = (.error e, s') := by
  unfold call
  rw [h]

/-- What does not move stays, and what fails stays. -/
theorem Travels.of_stays {s s' : Session} {answer : Except String Bool} {c : Command}
    {r : Except ShellError Unit} (h : s'.cwd = s.cwd) (hc : Moves answer c → ∃ e, r = .error e) :
    Travels s answer c r s' where
  failed _ _ := h
  cd path hcd hr := by
    subst hcd
    obtain ⟨e, rfl⟩ := hc trivial
    cases hr
  format hformat hyes hr := by
    subst hformat
    obtain ⟨e, rfl⟩ := hc hyes
    cases hr
  only hne := absurd h hne

/-- **One command**, whatever it is, and whatever is on the device. -/
theorem call_travels (s : Session) (answer : Except String Bool) (c : Command) :
    Travels s answer c (s.call answer c).1 (s.call answer c).2 := by
  by_cases hmoves : Moves answer c
  · cases c with
    | cd path =>
      rcases cd_cases answer path s with ⟨e, s', hrun, hcwd⟩ |
        ⟨stat, s', hrun, hstat, hkind, hv, hcwd⟩
      · rw [call_eq_error hrun]
        exact .of_stays hcwd fun _ => ⟨e, rfl⟩
      · rw [call_eq_ok hrun]
        refine ⟨by rintro e ⟨⟩, ?_, by rintro ⟨⟩, fun _ => ⟨rfl, .inl ⟨path, rfl⟩⟩⟩
        rintro _ ⟨⟩ -
        rw [hcwd, hv]
        exact ⟨rfl, stat, hstat, hkind, fun hd => (Volume.stat_settles _ _ _).again hd hstat⟩
    | format =>
      obtain rfl : answer = .ok true := hmoves
      rcases format_cases s with ⟨e, s', hrun, hcwd⟩ | ⟨s', hrun, hcwd⟩
      · rw [call_eq_error hrun]
        exact .of_stays hcwd fun _ => ⟨e, rfl⟩
      · rw [call_eq_ok hrun]
        exact ⟨by rintro e ⟨⟩, by rintro path ⟨⟩, fun _ _ _ => hcwd,
          fun _ => ⟨rfl, .inr ⟨rfl, rfl⟩⟩⟩
    | _ => exact hmoves.elim
  · refine .of_stays ?_ fun h => absurd h hmoves
    have hstays := execute_stays hmoves s
    unfold call
    cases hrun : execute answer c s with
    | ok a s' =>
      rw [hrun] at hstays
      exact hstays
    | error e s' =>
      rw [hrun] at hstays
      exact hstays

/-- **The current directory in a run** is a path in normal form. -/
theorem Reached.normal {start s : Session} (h : Reached start s) (hstart : start.cwd = "/") :
    ∃ segs, Path.Normal s.cwd segs := by
  have hroot : Path.Normal "/" [] := ⟨by simp, rfl⟩
  induction h with
  | start => exact ⟨[], hstart ▸ hroot⟩
  | quiet h ih => exact ih
  | @call s h answer c ih =>
    have htravels := s.call_travels answer c
    by_cases hcwd : (s.call answer c).2.cwd = s.cwd
    · exact hcwd ▸ ih
    · obtain ⟨hok, ⟨path, rfl⟩ | ⟨rfl, hyes⟩⟩ := htravels.only hcwd
      · rw [(htravels.cd path rfl hok).1]
        exact Path.normal_resolve _ _
      · rw [htravels.format rfl hyes hok]
        exact ⟨[], hroot⟩

/-- The lines typed at the prompt are such a run. -/
theorem Reached.console {start s : Session} (h : Reached start s) (inputs : List Input) :
    Reached start (Console.run s inputs).2 := by
  have hstep : ∀ {s} (input : Input), Reached start s →
      Reached start (Console.step s input).2.1 := by
    intro s input h
    cases input with
    | interrupt => exact h
    | done => exact h
    | line text answer =>
      unfold Console.step
      dsimp only
      split
      · exact h
      · split
        · exact h
        · rename_i command _
          have hcall := h.quiet.call answer command
          split
          · rename_i hrun
            rwa [call_eq_ok hrun] at hcall
          · rename_i hrun
            rwa [call_eq_error hrun] at hcall
  induction inputs generalizing s with
  | nil => exact h
  | cons input rest ih =>
    unfold Console.run
    dsimp only
    split
    · exact ih (hstep input h)
    · exact hstep input h

/-- **Resolving, and the current directory.** What a path means in a directory is a path in normal
form; it is accepted just if its segments have nine bytes at most, it means the same in every other
directory, and a path of two parts means what the second part means where the first one leads. In
every run of commands that begins in the root, on every device and with every pattern of faults,
the current directory is in normal form, also behind any lines at the prompt; and it is changed by
nothing but a successful `cd` and a successful format that was answered with yes. -/
theorem normal_directory :
    (∀ cwd path, ∃ segs, Path.Normal (Path.resolve cwd path) segs ∧
      (Path.validate (Path.resolve cwd path) = .ok () ↔ ∀ s ∈ segs, s.utf8ByteSize ≤ 9)) ∧
    (∀ other cwd path, Path.resolve other (Path.resolve cwd path) = Path.resolve cwd path) ∧
    (∀ cwd a b : String, a ≠ "" → b.toList.head? ≠ some '/' →
      Path.resolve cwd (a ++ "/" ++ b) = Path.resolve (Path.resolve cwd a) b) ∧
    ∀ start s : Session, start.cwd = "/" → Reached start s →
      (∃ segs, Path.Normal s.cwd segs) ∧
      (∀ inputs, ∃ segs, Path.Normal (Console.run s inputs).2.cwd segs) ∧
      ∀ answer c, Travels s answer c (s.call answer c).1 (s.call answer c).2 := by
  refine ⟨fun cwd path => ?_, Path.resolve_resolve,
    fun cwd a b ha hb => Path.resolve_append cwd ha hb,
    fun start s hstart h => ⟨h.normal hstart, fun inputs => (h.console inputs).normal hstart,
      s.call_travels⟩⟩
  obtain ⟨segs, hsegs⟩ := Path.normal_resolve cwd path
  exact ⟨segs, hsegs, hsegs.validate_iff⟩

/-- From the root of a volume with a directory, `cd .//d/` leads into it. -/
theorem normal_directory_made : ∃ s : Session, s.cwd = "/" ∧
    (s.call (.ok false) (.cd ".//d/")).1 = .ok () ∧
    (s.call (.ok false) (.cd ".//d/")).2.cwd = "/d" ∧
    Path.resolve "/d" ("../x" ++ "/" ++ "..//y") =
      Path.resolve (Path.resolve "/d" "../x") "..//y" := by
  obtain ⟨-, -, hparts, hruns⟩ := normal_directory
  obtain ⟨v, d, u, inv, p, -, -, hu, -, -, hslots⟩ := Usage.exists_directory
  let s : Session := { drive := u.drive, volume := u.volume }
  obtain ⟨-, -, htravels⟩ := hruns s s rfl .start
  have htarget : Path.resolve s.cwd ".//d/" = "/d" := (by decide : Path.resolve "/" ".//d/" = "/d")
  have hlocate : inv.locate "/d" = .ok (.directory, p) := by
    have hroute : Route.ofPath "/d" = .last "d" := by decide
    have hname : (Entry.ofFile "d" .directory p.sector).name = "d" :=
      NameField.text_ofName (by decide) (by decide)
    have hfind : inv.find "/d" = .ok (.ofFile "d" .directory p.sector,
        .directory p (List.replicate Layout.directorySlots none)) := by
      unfold Inventory.find
      rw [hroute, hslots, Slots.follow,
        Slots.find?_set _ (by decide) hname fun j _ hj => absurd hj (Nat.not_lt_zero j)]
    unfold Inventory.locate
    rw [if_neg (by decide), hfind]
    rfl
  have hstat := hu.consistent.stat_yields "/d"
  rw [hlocate, ← htarget] at hstat
  obtain ⟨d', hrun, -⟩ := hstat u.drive hu.fault_free rfl
  obtain ⟨s', hcd, -⟩ := cd_ok (s := s) (.ok false) hrun rfl
  have hok : (s.call (.ok false) (.cd ".//d/")).1 = .ok () := by rw [call_eq_ok hcd]
  refine ⟨s, rfl, hok, ?_, hparts "/d" "../x" "..//y" (by decide) (by decide)⟩
  exact ((htravels (.ok false) (.cd ".//d/")).cd _ rfl hok).1.trans htarget

end Session

end Shell

end SectorChain
