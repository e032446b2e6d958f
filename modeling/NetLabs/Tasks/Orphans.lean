import NetLabs.Tasks.Server

/-!
# Tasks that nobody works on

A handler puts its task back when its client closes the connection or is inactive; it does not when the client says `exit`, when
`recv` fails, when the server shuts down, or when the client is gone by the time the handler answers it. Along the runs without
such an end, and along those only, every task in state 1 is the `current_task` of a handler that runs.
-/

namespace NetLabs.Tasks

open CText Function Machine

variable {l l' : Ledger} {x : Effect} {c d i j : Nat} {tasks : List Task} {s s' : Server} {m : Move}

/-- Every task in state 1 is some running handler's `current_task`. -/
def Ledger.Held (l : Ledger) : Prop := ∀ i t, l.tasks[i]? = some t → t.state = .assigned → ∃ c, l.current c = some (some i)

/-- A handler's variable other than the one written is as it was. -/
theorem held_update {current : Nat → Option (Option Nat)} {o : Option (Option Nat)} (hd : current d = some (some j)) (hne : d ≠ c) :
    ∃ d, update current c o d = some (some j) := ⟨d, by rw [update_of_ne hne]; exact hd⟩

/-- A task changed to a state other than 1 is not one of those in state 1 afterwards. -/
theorem getElem?_modify_assigned {f : Task → Task} {t : Task} (hf : ∀ u, (f u).state ≠ .assigned)
    (ht : (tasks.modify i f)[j]? = some t) (hs : t.state = .assigned) : i ≠ j ∧ tasks[j]? = some t := by
  by_cases hij : i = j
  · subst hij
    rw [List.getElem?_modify_eq] at ht
    cases hu : tasks[i]? with
    | none => simp [hu] at ht
    | some u =>
      simp only [hu, Option.map_eq_map, Option.map_some, Option.some.injEq] at ht
      subst ht
      exact absurd hs (hf u)
  · rw [List.getElem?_modify_ne f tasks hij] at ht
    exact ⟨hij, ht⟩

/-- A change in which nobody deserts a task leaves every task in state 1 held. -/
theorem Ledger.Held.change (ho : l.Owned) (hh : l.Held) (h : Change l x l') (hx : x ≠ .deserted) : l'.Held := by
  intro j t ht hs
  cases h with
  | idle => exact hh j t ht hs
  | join c hc | leave c hc =>
    obtain ⟨d, hd⟩ := hh j t ht hs
    exact held_update hd (by rintro rfl; simp [hc] at hd)
  | desert c i hc => exact absurd rfl hx
  | reset c i hc =>
    obtain ⟨hij, ht⟩ := getElem?_modify_assigned (fun _ => by simp [Task.cleared]) ht hs
    obtain ⟨d, hd⟩ := hh j t ht hs
    exact held_update hd (by rintro rfl; rw [hc] at hd; simp [hij] at hd)
  | take c i tasks hnext =>
    obtain ⟨hall, _, rfl⟩ := getNextTask_task hnext
    by_cases hij : i = j
    · subst hij
      exact ⟨c, update_self ..⟩
    · rw [List.getElem?_modify_ne _ _ hij] at ht
      exact absurd hs (hall t (List.mem_of_getElem? ht))
  | grab c i tasks hnext => exact absurd rfl hx
  | complete c i hc o hoo =>
    obtain ⟨hij, ht⟩ := getElem?_modify_assigned (fun _ => by simp) ht hs
    obtain ⟨d, hd⟩ := hh j t ht hs
    exact held_update hd (by rintro rfl; rw [hc] at hd; simp [hij] at hd)
  | clear c =>
    rcases getElem?_clearAssignedTasks ht with ⟨ht0, hne⟩ | ⟨u, _, _, rfl⟩
    · obtain ⟨d, hd⟩ := hh j t ht0 hs
      refine held_update hd ?_
      rintro rfl
      obtain ⟨u, hu, _, hud⟩ := ho d j hd
      rw [ht0] at hu
      cases hu
      exact hne hud
    · cases hs

/-- A deserted task is in state 1 and held by nobody. -/
theorem Ledger.not_held_of_desert (ho : l.Owned) (h : Change l .deserted l') : ¬l'.Held := by
  intro hh
  cases h with
  | desert c i hc =>
    obtain ⟨t, ht, hs, htc⟩ := ho c i hc
    obtain ⟨d, hd⟩ := hh i t ht hs
    obtain ⟨hdc, hd⟩ := current_of_update (Or.inl rfl) hd
    exact hdc ((ho d i hd).unique ⟨t, ht, hs, htc⟩)
  | grab c i tasks hnext =>
    obtain ⟨hall, ⟨t, ht, _⟩, rfl⟩ := getNextTask_task hnext
    obtain ⟨d, hd⟩ := hh i { t with state := .assigned, assignedToClient := some c } (by simp [ht]) rfl
    obtain ⟨_, hd⟩ := current_of_update (Or.inl rfl) hd
    exact (ho d i hd).not_free hall

/-- No task is orphaned: each one in state 1 is held by a running handler, and none in state 1 is assigned to a client whose handler
does not run. -/
structure Server.NoOrphan (s : Server) : Prop where
  held : ∀ i t, s.tasks[i]? = some t → t.state = .assigned → ∃ c h, s.handlers c = some h ∧ h.currentTask = some i
  ended : ∀ c, s.handlers c = none → ∀ i, ¬AssignedTo s.tasks i c

/-- With the invariant, the first part says it all. -/
theorem noOrphan_iff (hi : s.Inv) : s.NoOrphan ↔ s.ledger.Held := by
  have hcur : ∀ c i, s.ledger.current c = some (some i) ↔ ∃ h, s.handlers c = some h ∧ h.currentTask = some i := by
    intro c i
    simp [Server.ledger]
  constructor
  · intro hn i t ht hs
    obtain ⟨c, h, hc, hh⟩ := hn.held i t ht hs
    exact ⟨c, (hcur c i).2 ⟨h, hc, hh⟩⟩
  · intro hh
    refine ⟨fun i t ht hs => ?_, ?_⟩
    · obtain ⟨c, hc⟩ := hh i t ht hs
      obtain ⟨h, hc, hh⟩ := (hcur c i).1 hc
      exact ⟨c, h, hc, hh⟩
    · rintro c hc i ⟨t, ht, hs, htc⟩
      obtain ⟨d, hd⟩ := hh i t ht hs
      obtain rfl := (hi.owned d i hd).unique ⟨t, ht, hs, htc⟩
      obtain ⟨h, hd, _⟩ := (hcur d i).1 hd
      rw [hc] at hd
      cases hd

/-- No orphaned task, in any state of a run of the server with any tasks, clients, messages, failures and times, exactly when no
handler ends with a task in hand. -/
theorem no_orphan_iff (descriptions : List (List UInt8)) (moves : List Move)
    (hx : exec Server.step (Server.begin descriptions) moves = some s') :
    Always Server.step Server.NoOrphan (Server.begin descriptions) moves ↔
      Meets Server.step (fun s m => ¬s.deserts m) (Server.begin descriptions) moves := by
  refine always_iff_meets (I := Server.Inv) (fun _ _ _ => step_inv) ?_ ?_ (begin_inv descriptions) ?_ hx
  · intro s m s' hi hp hg h
    obtain ⟨x, hx, hof⟩ := step_change hi h
    rw [noOrphan_iff (step_inv hi h)]
    exact ((noOrphan_iff hi).1 hp).change hi.owned hx fun hd => hg (hof.deserted.1 hd)
  · intro s m s' hi _ hg h
    obtain ⟨x, hx, hof⟩ := step_change hi h
    obtain rfl := hof.deserted.2 (not_not.1 hg)
    rw [noOrphan_iff (step_inv hi h)]
    exact Ledger.not_held_of_desert hi.owned hx
  · refine (noOrphan_iff (begin_inv descriptions)).2 fun i t ht hs => ?_
    simp only [Server.ledger, Server.begin, loaded, List.getElem?_map, Option.map_eq_some_iff] at ht
    obtain ⟨d, _, rfl⟩ := ht
    cases hs

/-- `no_orphan_iff` on a client that takes the only task and closes its connection. -/
theorem no_orphan_closed : ∃ s', exec Server.step (Server.begin [text "5 + 3"])
      [.accept 0, .top 0 0, .recv 0 (.message (text "GET_TASK\n") false), .top 0 1, .recv 0 .closed] = some s' ∧
    (Always Server.step Server.NoOrphan (Server.begin [text "5 + 3"])
        [.accept 0, .top 0 0, .recv 0 (.message (text "GET_TASK\n") false), .top 0 1, .recv 0 .closed] ↔
      Meets Server.step (fun s m => ¬s.deserts m) (Server.begin [text "5 + 3"])
        [.accept 0, .top 0 0, .recv 0 (.message (text "GET_TASK\n") false), .top 0 1, .recv 0 .closed]) :=
  ⟨_, rfl, no_orphan_iff [text "5 + 3"]
    [.accept 0, .top 0 0, .recv 0 (.message (text "GET_TASK\n") false), .top 0 1, .recv 0 .closed] rfl⟩

/-- A client takes the only task and says `exit`: its handler ends, the task stays in state 1 and assigned to it. -/
theorem orphan_by_exit :
    ¬Always Server.step Server.NoOrphan (Server.begin [text "5 + 3"])
      [.accept 0, .top 0 0, .recv 0 (.message (text "GET_TASK\n") false), .top 0 1, .recv 0 (.message (text "exit\n") false)] := by
  intro hall
  have hrun : ∃ s', exec Server.step (Server.begin [text "5 + 3"])
      [.accept 0, .top 0 0, .recv 0 (.message (text "GET_TASK\n") false), .top 0 1,
        .recv 0 (.message (text "exit\n") false)] = some s' ∧ s'.handlers 0 = none ∧ AssignedTo s'.tasks 0 0 :=
    ⟨_, rfl, rfl, _, rfl, rfl, rfl⟩
  obtain ⟨s', hx, hended, hassigned⟩ := hrun
  exact (hall _ (List.prefix_refl _) s' hx).ended 0 hended 0 hassigned

end NetLabs.Tasks
