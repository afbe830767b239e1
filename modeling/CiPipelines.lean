import CiPipelines.Files.FileSystem
import CiPipelines.Main
import CiPipelines.Stored.Json
import CiPipelines.Stored.Yaml
import CiPipelines.Proofs.AzureFiles
import CiPipelines.Proofs.CarriedCommands
import CiPipelines.Proofs.CarriedFields
import CiPipelines.Proofs.Checkouts
import CiPipelines.Proofs.ConversionChains
import CiPipelines.Proofs.DependencyGraphs
import CiPipelines.Proofs.GithubRoundTrip
import CiPipelines.Proofs.GitlabRoundTrip
import CiPipelines.Proofs.InheritedFields
import CiPipelines.Proofs.JenkinsFields
import CiPipelines.Proofs.JenkinsRoundTrip
import CiPipelines.Proofs.JobKeys
import CiPipelines.Proofs.JobNames
import CiPipelines.Proofs.LastValues
import CiPipelines.Proofs.MergedTriggers
import CiPipelines.Proofs.OrbSteps
import CiPipelines.Proofs.RepeatedRuns
import CiPipelines.Proofs.ScalarTexts
import CiPipelines.Proofs.ShellCalls
import CiPipelines.Proofs.StoredPipelines
import CiPipelines.Proofs.WorkingDirectories
