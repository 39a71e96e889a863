import WorkspaceRelease.Executor
import WorkspaceRelease.Main
import WorkspaceRelease.Rehearsal.Shell
import WorkspaceRelease.Toml.Data
import WorkspaceRelease.Proofs.Dispatcher
import WorkspaceRelease.Proofs.DataFiles
import WorkspaceRelease.Proofs.Stamping
import WorkspaceRelease.Proofs.Release.Stages
import WorkspaceRelease.Proofs.Release.Phases
import WorkspaceRelease.Proofs.Files
import WorkspaceRelease.Proofs.Path
import WorkspaceRelease.Proofs.Toml.Agreement
import WorkspaceRelease.Proofs.Toml.Distinct
import WorkspaceRelease.Proofs.Toml.Reading
import WorkspaceRelease.Proofs.Manifest.Stamp
import WorkspaceRelease.Proofs.Manifest.Stamped
import WorkspaceRelease.Proofs.Manifest.Paths
import WorkspaceRelease.Proofs.Stamping.Texts
import WorkspaceRelease.Proofs.Stamping.Files
import WorkspaceRelease.Proofs.Stamping.Effect
import WorkspaceRelease.Proofs.SetVersions
import WorkspaceRelease.Proofs.Release.Commands
import WorkspaceRelease.Proofs.Release.DryRun
import WorkspaceRelease.Proofs.Release.Postcondition
import WorkspaceRelease.Proofs.Dispatcher.Operations
import WorkspaceRelease.Proofs.Stamping.Again
import WorkspaceRelease.Proofs.Release.Requirements
import WorkspaceRelease.Proofs.Manifest.Replacement
import WorkspaceRelease.Proofs.Manifest.Series
import WorkspaceRelease.Proofs.Toml.Forms
import WorkspaceRelease.Proofs.Toml.Values
import WorkspaceRelease.Proofs.Manifest.Agreement
import WorkspaceRelease.Proofs.Manifest.Distinct
import WorkspaceRelease.Proofs.Stamping.History
import WorkspaceRelease.Proofs.Stamping.Locality
import WorkspaceRelease.Proofs.Manifest.Comments
import WorkspaceRelease.Proofs.Stamping.Comments
import WorkspaceRelease.Proofs.DataFiles.Renderings
import WorkspaceRelease.Proofs.Members.Discovery
import WorkspaceRelease.Proofs.Manifest.Places
import WorkspaceRelease.Proofs.Manifest.Account
import WorkspaceRelease.Proofs.CommandLine.Words
import WorkspaceRelease.Proofs.CommandLine.Arguments
import WorkspaceRelease.Proofs.CommandLine.Refusal
import WorkspaceRelease.Proofs.Members.Location
import WorkspaceRelease.Proofs.Toml.Closing
import WorkspaceRelease.Proofs.Manifest.Closing
