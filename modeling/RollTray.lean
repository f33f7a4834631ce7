import RollTray.Proofs.Dice.Answers
import RollTray.Proofs.Dice.Endings
import RollTray.Proofs.Dice.Faces
import RollTray.Proofs.Dice.KeepRules
import RollTray.Proofs.Dice.Ranges
import RollTray.Proofs.Dice.Shuffling
import RollTray.Proofs.Formula.Acceptance
import RollTray.Proofs.Formula.Amounts
import RollTray.Proofs.Formula.Arguments
import RollTray.Proofs.Formula.Auditing
import RollTray.Proofs.Formula.Closing
import RollTray.Proofs.Formula.Confinement
import RollTray.Proofs.Formula.DryRun
import RollTray.Proofs.Formula.Exhaustion
import RollTray.Proofs.Formula.Expansion
import RollTray.Proofs.Formula.Grammar
import RollTray.Proofs.Formula.Integers
import RollTray.Proofs.Formula.Lexemes
import RollTray.Proofs.Formula.Markup
import RollTray.Proofs.Formula.Pieces
import RollTray.Proofs.Formula.Places
import RollTray.Proofs.Formula.Reading
import RollTray.Proofs.Formula.Reference
import RollTray.Proofs.Formula.Reduction
import RollTray.Proofs.Formula.Refusals
import RollTray.Proofs.Formula.Respelling
import RollTray.Proofs.Formula.Rewriting
import RollTray.Proofs.Formula.Seams
import RollTray.Proofs.Formula.Simulation
import RollTray.Proofs.Formula.Spacing
import RollTray.Proofs.Formula.Spelling
import RollTray.Proofs.Formula.Stacks
import RollTray.Proofs.Formula.Template
import RollTray.Proofs.Formula.Unspliced
import RollTray.Proofs.Heap
import RollTray.Proofs.Keys
import RollTray.Proofs.Number.Floats
import RollTray.Proofs.Number.Nearest
import RollTray.Proofs.Number.Order
import RollTray.Proofs.Number.Rounding
import RollTray.Proofs.Number.Tenths
import RollTray.Proofs.Saving
import RollTray.Proofs.Text.Nesting
import RollTray.Proofs.Tray.Accounts
import RollTray.Proofs.Tray.Action
import RollTray.Proofs.Tray.Beginning
import RollTray.Proofs.Tray.Canceling
import RollTray.Proofs.Tray.Capacity
import RollTray.Proofs.Tray.Change
import RollTray.Proofs.Tray.Clearing
import RollTray.Proofs.Tray.Completion
import RollTray.Proofs.Tray.Dealing
import RollTray.Proofs.Tray.Draining
import RollTray.Proofs.Tray.Evicting
import RollTray.Proofs.Tray.Evidence
import RollTray.Proofs.Tray.Genuine
import RollTray.Proofs.Tray.Independence
import RollTray.Proofs.Tray.Issuing
import RollTray.Proofs.Tray.Keeping
import RollTray.Proofs.Tray.Knocking
import RollTray.Proofs.Tray.LifeCycle
import RollTray.Proofs.Tray.Loading
import RollTray.Proofs.Tray.Looking
import RollTray.Proofs.Tray.Mirroring
import RollTray.Proofs.Tray.Operations
import RollTray.Proofs.Tray.Orderly
import RollTray.Proofs.Tray.Preservation
import RollTray.Proofs.Tray.Pruning
import RollTray.Proofs.Tray.Reentry
import RollTray.Proofs.Tray.Refusing
import RollTray.Proofs.Tray.Rerolling
import RollTray.Proofs.Tray.Resolving
import RollTray.Proofs.Tray.Resting
import RollTray.Proofs.Tray.Restoring
import RollTray.Proofs.Tray.Resuming
import RollTray.Proofs.Tray.Runs
import RollTray.Proofs.Tray.Settling
import RollTray.Proofs.Tray.Shapes
import RollTray.Proofs.Tray.Showing
import RollTray.Proofs.Tray.Telling
import RollTray.Proofs.Tray.Throwing
import RollTray.Proofs.Tray.Ticking
import RollTray.Proofs.Tray.Undisturbed
import RollTray.Proofs.Tray.Uses
import RollTray.Proofs.Tray.Waiting
import RollTray.Proofs.Tray.Watermark
import RollTray.Proofs.Tunables
import RollTray.Proofs.World.Bodies
import RollTray.Proofs.World.Drawing
import RollTray.Proofs.World.Faces
import RollTray.Proofs.World.Footings
import RollTray.Proofs.World.Housing
import RollTray.Proofs.World.Lodging
import RollTray.Proofs.World.Separation
import RollTray.Proofs.World.Slumber
import RollTray.Proofs.World.Treatment
import RollTray.Render
import RollTray.Tray.Listening
import RollTray.Tray.Snapshot
import RollTray.Tray.Ticking
import RollTray.World.Scripted
import RollTray.World.Simulated
