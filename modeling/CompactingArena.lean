import CompactingArena.Session
import CompactingArena.Shared
import CompactingArena.Proofs.Arena.Oversight
import CompactingArena.Proofs.HeaderTable.Discipline
import CompactingArena.Proofs.Session.Builds
import CompactingArena.Proofs.Session.Contents
import CompactingArena.Proofs.Session.Economy
import CompactingArena.Proofs.Session.Growth
import CompactingArena.Proofs.Session.Ledger
import CompactingArena.Proofs.Session.NormalForm
import CompactingArena.Proofs.Session.Pitfalls
import CompactingArena.Proofs.Session.Progress
import CompactingArena.Proofs.Session.Recovery
import CompactingArena.Proofs.Session.Refusal
import CompactingArena.Proofs.Session.Relocation
import CompactingArena.Proofs.Session.Serving
import CompactingArena.Proofs.Session.Tallies
import CompactingArena.Proofs.Session.Totals
import CompactingArena.Proofs.SizeClasses.Misfiled
